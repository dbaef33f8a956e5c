import TrialScript.Proofs.Tree.Traversal
import TrialScript.Proofs.Value.Places

/-! Composition: what is wrong in a part is reported between what is wrong elsewhere. -/

namespace TrialScript

/-- A problem seen from two parts further outside is seen along both paths in turn. -/
theorem Problem.within_within (outer inner : List Segment) (problem : Problem) :
    (problem.within inner).within outer = problem.within (outer ++ inner) := by
  simp only [within, List.append_assoc]

/-- Whatever a part is, its problems are found along a path, with the same problems around them. -/
def Around (path : List Segment) (found : Value → List Problem) : Prop :=
  ∃ before after : List Problem, ∀ part,
    found part = before ++ (problems part).map (Problem.within path) ++ after

namespace Around

variable {path : List Segment} {found : Value → List Problem}

/-- A part that is looked at by itself has nothing around it. -/
theorem here : Around [] problems := by
  -- Seen along no path at all, a problem stays where it is.
  refine ⟨[], [], fun part => ?_⟩
  have same : Problem.within [] = id := rfl
  rw [same, List.map_id, List.nil_append, List.append_nil]

/-- What is found may be written in another way. -/
theorem congr {other : Value → List Problem} (around : Around path found)
    (same : ∀ part, other part = found part) : Around path other := by
  rw [funext same]
  exact around

/-- One step further outside the same problems are around the part. -/
theorem under (around : Around path found) (segment : Segment) :
    Around (segment :: path) fun part => (found part).map (Problem.under segment) := by
  obtain ⟨before, after, split⟩ := around
  refine ⟨before.map (.under segment), after.map (.under segment), fun part => ?_⟩
  simp only [split, List.map_append, List.map_map]
  rfl

/-- More problems on both sides are around the part as well. -/
theorem between (around : Around path found) (first last : List Problem) :
    Around path fun part => first ++ found part ++ last := by
  obtain ⟨before, after, split⟩ := around
  refine ⟨first ++ before, after ++ last, fun part => ?_⟩
  simp only [split, List.append_assoc]

/-- What is around a part that holds another one is around that one too. -/
theorem inside {inner : List Segment} {fill : Value → Value} (around : Around path found)
    (deeper : Around inner fun part => problems (fill part)) :
    Around (path ++ inner) fun part => found (fill part) := by
  obtain ⟨before, after, split⟩ := around
  obtain ⟨before', after', split'⟩ := deeper
  -- What surrounds the inner part is itself seen along the path to the outer one.
  refine ⟨before ++ before'.map (.within path), after'.map (.within path) ++ after,
    fun part => ?_⟩
  simp only [split, split', List.map_append, List.map_map, List.append_assoc, Function.comp_def,
    Problem.within_within]

/-- Where the elements of a list are gone through one by one, those of the others are around. -/
theorem numbered {all : Nat → List Value → List Problem} {elements : List Value} {index : Nat}
    {fill : Value → Value} (start : Nat)
    (step : ∀ start first rest,
      all start (first :: rest) = all start [first] ++ all (start + 1) rest)
    (there : index < elements.length)
    (own : Around path fun part => all (start + index) [fill part]) :
    Around path fun part => all start (elements.set index (fill part)) := by
  -- The induction goes through the elements, numbered from any number on, up to the one filled.
  induction elements generalizing index start with
  | nil => exact absurd there (Nat.not_lt_zero index)
  | cons first rest ih =>
    cases index with
    | zero =>
      exact (own.between [] (all (start + 1) rest)).congr fun part => step start (fill part) rest
    | succ index =>
      rw [Nat.add_comm index 1, ← Nat.add_assoc] at own
      have further := ih (start + 1) (Nat.lt_of_succ_lt_succ there) own
      refine (further.between (all start [first]) []).congr fun part => ?_
      rw [List.set_cons_succ, step, List.append_nil]

/-- The problems of the other items are around those of an item. -/
theorem items {items : List Value} {index : Nat} {item : Value}
    (found : items[index]? = some item) :
    Around [.item index] fun part => itemProblems 0 (items.set index part) := by
  -- The problems of one item alone are its own, seen from the list.
  have there := (List.getElem?_eq_some_iff.mp found).1
  refine numbered 0 (fun start first rest => ?_) there ?_
  · simp only [itemProblems, List.append_nil]
  · simpa only [itemProblems, List.append_nil, Nat.zero_add] using here.under (.item index)

end Around

section Clauses

variable {key : String}

/-- Another value in one part of a clause has its own problems, and the other part keeps its own. -/
theorem partProblems_put (other : String) (parts : Table Value) (part : Value) :
    partProblems other (parts.put key part) =
      if key = other then (problems part).map (.under (.field key))
      else partProblems other parts := by
  -- Only the part under that key is another one.
  simp only [partProblems_eq, partFinding, Table.lookup?_put]
  by_cases same : key = other
  · subst same
    simp only [if_true, Finding.problems]
    rfl
  · simp only [if_neg same]

/-- The problems of a clause stand before those of the clauses behind it. -/
theorem clauseProblems_cons (start : Nat) (clause : Value) (rest : List Value) :
    clauseProblems start (clause :: rest) =
      clauseProblems start [clause] ++ clauseProblems (start + 1) rest := by
  -- What is no mapping has one problem, which is that.
  cases clause with
  | dict parts => simp only [clauseProblems, List.append_nil]
  | _ => simp [clauseProblems]

/-- The problems of the rest of a list of clauses are around those of a guard or a body. -/
theorem Around.clauses {clauses : List Value} {index : Nat} {parts : Table Value}
    (found : clauses[index]? = some (.dict parts)) (side : key = "if" ∨ key = "then") :
    Around [.item index, .field key] fun part =>
      clauseProblems 0 (clauses.set index (.dict (parts.put key part))) := by
  -- Within the clause the other part comes before or after, and keeps its problems.
  have own := here.under (.field key)
  have sides : Around [.field key] fun part =>
      partProblems "if" (parts.put key part) ++ partProblems "then" (parts.put key part) := by
    rcases side with rfl | rfl
    · exact (own.between [] (partProblems "then" parts)).congr fun part => by
        simp [partProblems_put]
    · exact (own.between (partProblems "if" parts) []).congr fun part => by
        simp [partProblems_put]
  have there := (List.getElem?_eq_some_iff.mp found).1
  refine numbered 0 clauseProblems_cons there ?_
  simpa only [clauseProblems, List.append_nil, Nat.zero_add] using sides.under (.item index)

end Clauses

section Fields

variable {op : Operation} {fields : Table Value}

/-- No operation lists a field twice, or the field of its tag. -/
theorem distinct_fields (op : Operation) (fields : Table Value) :
    ("op" :: (op.fields fields).map Field.key).Nodup := by
  -- Only two operations look at which keys are there.
  cases op with
  | binary op =>
    simp only [Operation.fields]
    split <;> decide
  | connective op =>
    simp only [Operation.fields]
    split <;> decide
  | _ => exact of_decide_eq_true rfl

/-- The tag of a node is not among the fields of its operation. -/
theorem key_ne_op {field : Field} (listed : field ∈ op.fields fields) : field.key ≠ "op" := by
  have fresh := (List.nodup_cons.mp (distinct_fields op fields)).1
  exact fun same => fresh (same ▸ List.mem_map_of_mem listed)

/-- Another value in a field that is there leaves the operation and its fields as they are. -/
theorem node_put {field : Field} {held : Value} (tag : operationOf fields = .ok op)
    (listed : field ∈ op.fields fields) (found : fields.lookup? field.key = some held)
    (value : Value) :
    operationOf (fields.put field.key value) = .ok op ∧
      op.fields (fields.put field.key value) = op.fields fields := by
  -- The tag is another field, and the same keys are there as before.
  have other := key_ne_op listed
  have kept : ∀ name, Table.has name (fields.put field.key value) = fields.has name := by
    intro name
    rw [Bool.eq_iff_iff, Table.has_put]
    refine or_iff_right_of_imp fun same => ?_
    rw [← same, Table.has, found, Option.isSome_some]
  constructor
  · simp only [operationOf, Table.lookup?_put, if_neg other] at tag ⊢
    exact tag
  · -- The fields of an operation depend on which keys are there, but not on what they hold.
    have negation : ∀ op : BinaryOp, op.isNegation (fields.put field.key value) =
        op.isNegation fields := fun op => by simp only [BinaryOp.isNegation, kept]
    have between : writtenBetween (fields.put field.key value) = writtenBetween fields := by
      simp only [writtenBetween, kept]
    cases op with
    | binary op => rw [Operation.fields, Operation.fields, negation]
    | connective op => rw [Operation.fields, Operation.fields, between]
    | _ => rfl

/-- Another value in a field of a node has its own problems. -/
theorem fieldProblems_put_self (field : Field) (value : Value) :
    fieldProblems op field (fields.put field.key value) =
      (heldFindings op field value).flatMap Finding.problems := by
  rw [fieldProblems_eq, fieldFindings, Table.lookup?_put, if_pos rfl]

/-- Another value in one field of a node leaves the problems of the other fields as they are. -/
theorem fieldProblems_put_other {key : String} {other : Field} (differs : key ≠ other.key)
    (value : Value) :
    fieldProblems op other (fields.put key value) = fieldProblems op other fields := by
  simp only [fieldProblems_eq, fieldFindings, Table.lookup?_put, if_neg differs]

/-- The problems of the other fields of a node are around those in one of its fields. -/
theorem Around.field {field : Field} {value : Value} {path : List Segment} {fill : Value → Value}
    (tag : operationOf fields = .ok op) (listed : field ∈ op.fields fields)
    (found : fields.lookup? field.key = some value)
    (held : Around path fun part => (heldFindings op field (fill part)).flatMap Finding.problems) :
    Around path fun part => problems (.dict (fields.put field.key (fill part))) := by
  obtain ⟨earlier, later, split⟩ := List.append_of_mem listed
  -- The field is listed once, so the fields on both sides of it have other keys.
  have others : ∀ other ∈ earlier ++ later, field.key ≠ other.key := by
    have distinct := (List.nodup_cons.mp (distinct_fields op fields)).2
    rw [split, List.map_append, List.map_cons, List.nodup_middle, ← List.map_append] at distinct
    intro other member same
    exact (List.nodup_cons.mp distinct).1 (same ▸ List.mem_map_of_mem member)
  have kept : ∀ some ⊆ earlier ++ later, ∀ part,
      (some.flatMap fun other => fieldProblems op other (fields.put field.key (fill part))) =
        some.flatMap fun other => fieldProblems op other fields := by
    intro some among part
    refine List.flatMap_congr fun other member => ?_
    exact fieldProblems_put_other (others other (among member)) _
  refine (held.between (earlier.flatMap fun other => fieldProblems op other fields)
    (later.flatMap fun other => fieldProblems op other fields)).congr fun part => ?_
  obtain ⟨tag', alike⟩ := node_put tag listed found (fill part)
  simp only [problems, tag', alike, split, List.flatMap_append, List.flatMap_cons,
    kept earlier (List.subset_append_left _ _), kept later (List.subset_append_right _ _),
    fieldProblems_put_self, List.append_assoc]

end Fields

/-- A part stands at a place inside the value of a field that has a given shape. -/
inductive Holds : FieldShape → Value → List Segment → Value → Prop where
  | tree (part : Value) : Holds .tree part [] part
  | optionalTree (part : Value) : Holds .optionalTree part [] part
  | trees {items : List Value} {index : Nat} {part : Value} (found : items[index]? = some part) :
      Holds .trees (.list items) [.item index] part
  | presentTrees {items : List Value} {index : Nat} {part : Value}
      (found : items[index]? = some part) : Holds .presentTrees (.list items) [.item index] part
  | clauses {clauses : List Value} {index : Nat} {parts : Table Value} {key : String} {part : Value}
      (found : clauses[index]? = some (.dict parts)) (side : key = "if" ∨ key = "then")
      (held : parts.lookup? key = some part) :
      Holds .clauses (.list clauses) [.item index, .field key] part

/-- A part of a written script that is a script again: an item of a list, or a part of a field. -/
inductive Subscript : Value → List Segment → Value → Prop where
  | item {items : List Value} {index : Nat} {part : Value} (found : items[index]? = some part) :
      Subscript (.list items) [.item index] part
  | field {fields : Table Value} {op : Operation} {field : Field} {value part : Value}
      {path : List Segment} (tag : operationOf fields = .ok op)
      (listed : field ∈ op.fields fields) (found : fields.lookup? field.key = some value)
      (holds : Holds field.shape value path part) :
      Subscript (.dict fields) (.field field.key :: path) part

section Subscripts

variable {script value part : Value} {path : List Segment}

/-- The path from a field to a part of it leads to that part. -/
theorem Holds.part? {shape : FieldShape} (holds : Holds shape value path part) :
    value.part? path = some part := by
  cases holds with
  | tree | optionalTree => exact Value.part?_nil _
  | trees found | presentTrees found => rw [Value.part?_item found, Value.part?_nil]
  | clauses found _ held => rw [Value.part?_item found, Value.part?_field held, Value.part?_nil]

/-- The path from a script to a part of it leads to that part. -/
theorem Subscript.part? (inside : Subscript script path part) : script.part? path = some part := by
  cases inside with
  | item found => rw [Value.part?_item found, Value.part?_nil]
  | field _ _ found holds => rw [Value.part?_field found, holds.part?]

/-- The problems of everything else in a field are around those of a part that it holds. -/
theorem Holds.around {op : Operation} {field : Field} (holds : Holds field.shape value path part) :
    Around (.field field.key :: path) fun other =>
      (heldFindings op field (value.withPart path other)).flatMap Finding.problems := by
  -- The shape of the field says where the part stands in its value.
  obtain ⟨key, shape⟩ := field
  cases holds with
  | tree | optionalTree =>
    refine (Around.here.under (.field key)).congr fun other => ?_
    rw [Value.withPart_nil]
    exact List.append_nil _
  | trees found | presentTrees found =>
    refine ((Around.items found).under (.field key)).congr fun other => ?_
    simp only [Value.withPart_item found, Value.withPart_nil, heldFindings,
      Finding.flatMap_problems_under, itemProblems_eq]
  | clauses found side held =>
    refine ((Around.clauses found side).under (.field key)).congr fun other => ?_
    simp only [Value.withPart_item found, Value.withPart_field held, Value.withPart_nil,
      heldFindings, Finding.flatMap_problems_under, clauseProblems_eq]

/-- The problems of everything else in a script are around those of a part of it. -/
theorem Subscript.around (inside : Subscript script path part) :
    Around path fun other => problems (script.withPart path other) := by
  -- A part is an item of a list or is held by a field, and so are the places around it.
  cases inside with
  | item found =>
    refine (Around.items found).congr fun other => ?_
    rw [Value.withPart_item found, Value.withPart_nil, problems]
  | field tag listed found holds =>
    refine (Around.field tag listed found holds.around).congr fun other => ?_
    rw [Value.withPart_field found]

/-- Each part that is gone to among items is the item of its number. -/
theorem item_of_itemFindings {start : Nat} {items : List Value}
    (member : .visit path part ∈ itemFindings start items) :
    ∃ index, path = [.item (start + index)] ∧ items[index]? = some part := by
  -- The induction is on the items, from any number on.
  induction items generalizing start with
  | nil => cases member
  | cons first rest ih =>
    rcases List.mem_cons.mp member with here | later
    · cases here
      exact ⟨0, rfl, rfl⟩
    · obtain ⟨index, place, found⟩ := ih later
      refine ⟨index + 1, ?_, found⟩
      rw [place, Nat.add_assoc, Nat.add_comm 1]

/-- Each part that is gone to in a part of a clause is the value of that part. -/
theorem eq_partFinding {key : String} {parts : Table Value}
    (same : .visit path part = partFinding key parts) :
    path = [.field key] ∧ parts.lookup? key = some part := by
  -- A part that is missing is a problem, and nothing is gone to.
  unfold partFinding at same
  split at same
  · cases same
  · next found =>
    cases same
    exact ⟨rfl, found⟩

/-- Each part that is gone to among clauses is the guard or the body of the clause of its number. -/
theorem part_of_clauseFindings {start : Nat} {clauses : List Value}
    (member : .visit path part ∈ clauseFindings start clauses) :
    ∃ index key parts, path = [.item (start + index), .field key] ∧
      clauses[index]? = some (.dict parts) ∧ (key = "if" ∨ key = "then") ∧
        Table.lookup? key parts = some part := by
  -- The induction is on the clauses, from any number on.
  induction clauses generalizing start with
  | nil => cases member
  | cons clause rest ih =>
    have later : .visit path part ∈ clauseFindings (start + 1) rest →
        ∃ index key parts, path = [.item (start + index), .field key] ∧
          (clause :: rest)[index]? = some (.dict parts) ∧ (key = "if" ∨ key = "then") ∧
            Table.lookup? key parts = some part := by
      intro member
      obtain ⟨index, key, parts, place, found, side, held⟩ := ih member
      refine ⟨index + 1, key, parts, ?_, found, side, held⟩
      rw [place, Nat.add_assoc, Nat.add_comm 1]
    -- The visited place is that of the guard or the body of this clause, or of a later one.
    cases clause with
    | dict parts =>
      rcases List.mem_append.mp member with here | behind
      · obtain ⟨inner, rfl, inside⟩ := Finding.visit_mem_under here
        simp only [List.mem_cons, List.not_mem_nil, or_false] at inside
        rcases inside with guard | body
        · obtain ⟨rfl, held⟩ := eq_partFinding guard
          exact ⟨0, "if", parts, rfl, rfl, .inl rfl, held⟩
        · obtain ⟨rfl, held⟩ := eq_partFinding body
          exact ⟨0, "then", parts, rfl, rfl, .inr rfl, held⟩
      · exact later behind
    | _ =>
      rcases List.mem_cons.mp member with here | behind
      · cases here
      · exact later behind

/-- Each part that is gone to in a field is one that the value of the field holds. -/
theorem holds_of_heldFindings {op : Operation} {field : Field}
    (member : .visit path part ∈ heldFindings op field value) :
    ∃ inner, path = .field field.key :: inner ∧ Holds field.shape value inner part := by
  -- Only the shapes with scripts in them are gone into, and lists only where there is one.
  obtain ⟨key, shape⟩ := field
  cases shape with
  | anything => cases member
  | name => simp [heldFindings] at member
  | tree =>
    cases List.mem_singleton.mp member
    exact ⟨[], rfl, .tree _⟩
  | optionalTree =>
    cases List.mem_singleton.mp member
    exact ⟨[], rfl, .optionalTree _⟩
  -- A list of scripts is gone into item by item, and a list of clauses clause by clause.
  | trees | presentTrees =>
    cases value with
    | list items =>
      obtain ⟨inner, rfl, inside⟩ := Finding.visit_mem_under member
      obtain ⟨index, rfl, found⟩ := item_of_itemFindings inside
      rw [Nat.zero_add]
      refine ⟨_, rfl, ?_⟩
      constructor
      exact found
    | _ => simp [heldFindings] at member
  | clauses =>
    cases value with
    | list clauses =>
      obtain ⟨inner, rfl, inside⟩ := Finding.visit_mem_under member
      obtain ⟨index, key, parts, rfl, found, side, held⟩ := part_of_clauseFindings inside
      rw [Nat.zero_add]
      exact ⟨_, rfl, .clauses found side held⟩
    | _ => simp [heldFindings] at member

/-- Every part that the traversal goes to from a script is a part of it. -/
theorem subscript_of_findings (member : .visit path part ∈ findings script) :
    Subscript script path part := by
  -- Lists are gone through item by item, and nodes field by field of their operation.
  cases script with
  | scalar value => cases member
  | list items =>
    obtain ⟨index, rfl, found⟩ := item_of_itemFindings member
    rw [Nat.zero_add]
    exact .item found
  | dict fields =>
    rw [findings] at member
    split at member
    · simp at member
    · next tag =>
      obtain ⟨field, listed, inside⟩ := List.mem_flatMap.mp member
      unfold fieldFindings at inside
      split at inside
      · simp at inside
      · next found =>
        obtain ⟨inner, rfl, holds⟩ := holds_of_heldFindings inside
        exact .field tag listed found holds
  | date value | datetime value => simp [findings] at member

/-- Whatever stands at a place that the traversal meets, the problems of everything else are around
its own. -/
theorem problems_withPart (met : (path, part) ∈ visited script) :
    Around path fun other => problems (script.withPart path other) := by
  refine induction_visited
    (motive := fun script path _ => Around path fun other => problems (script.withPart path other))
    (fun script => ?_) ?_ met
  · exact Around.here.congr fun other => by rw [Value.withPart_nil]
  · -- What surrounds the outer part and what surrounds the place in it add up.
    intro script outer part inner hole visit within
    have sub := subscript_of_findings visit
    refine (sub.around.inside within).congr fun other => ?_
    rw [Value.withPart_append sub.part?]

end Subscripts

section Messages

/-- A text with the steps of a path behind it. -/
theorem foldl_text (text : String) (path : List Segment) :
    path.foldl (fun text segment => text ++ segment.text) text =
      text ++ path.foldl (fun text segment => text ++ segment.text) "" := by
  -- The induction is on the path, behind any text.
  induction path generalizing text with
  | nil => exact String.append_empty.symm
  | cons segment path ih =>
    rw [List.foldl_cons, List.foldl_cons, ih (text ++ segment.text), ih ("" ++ segment.text),
      String.empty_append, String.append_assoc]

/-- What a message says behind the place of the script that is looked at. -/
def Problem.ending (problem : Problem) : String :=
  problem.path.foldl (fun text segment => text ++ segment.text) "" ++
    (": " ++ problem.defect.message)

/-- Seen from further outside, a problem is reported with the place of the part in front. -/
theorem Problem.message_within (path : List Segment) (problem : Problem) :
    (problem.within path).message = pathText path ++ problem.ending := by
  rw [message, within, ending, pathText, List.foldl_append, foldl_text, String.append_assoc,
    String.append_assoc, pathText]

/-- A problem is reported with the root in front. -/
theorem Problem.message_eq (problem : Problem) : problem.message = "root" ++ problem.ending :=
  problem.message_within []

/-- Whatever stands at a place that is looked at, what is wrong with it is reported of the whole
script with that place for the root, between the same messages about everything else. -/
theorem messages_compose {script hole : Value} {path : List Segment}
    (met : (path, hole) ∈ visited script) :
    ∃ before after : List String, ∀ part : Value, ∃ endings : List String,
      (problems part).map Problem.message = endings.map ("root" ++ ·) ∧
        (problems (script.withPart path part)).map Problem.message =
          before ++ endings.map (pathText path ++ ·) ++ after := by
  -- The messages follow the problems, of which those of the part differ in what stands in front.
  obtain ⟨before, after, split⟩ := problems_withPart met
  refine ⟨before.map Problem.message, after.map Problem.message, fun part =>
    ⟨(problems part).map Problem.ending, ?_, ?_⟩⟩
  · rw [List.map_map]
    exact List.map_congr_left fun problem _ => problem.message_eq
  · simp only [split, List.map_append, List.map_map, Function.comp_def, Problem.message_within]

/-- The body of a clause, before a clause without a body and a step with an unknown operation. -/
theorem messages_compose_body :
    let clauses := Value.list
      [.dict [("if", .bool true), ("then", .null)], .dict [("if", .bool false)]]
    let script := Value.dict [("op", .str "seq"), ("seq", .list
      [.dict [("op", .str "cond"), ("cond", clauses)], .dict [("op", .str "frob")]])]
    let path := [.field "seq", .item 0, .field "cond", .item 0, .field "then"]
    (path, .null) ∈ visited script ∧
      (∃ before after : List String, ∀ part : Value, ∃ endings : List String,
        (problems part).map Problem.message = endings.map ("root" ++ ·) ∧
          (problems (script.withPart path part)).map Problem.message =
            before ++ endings.map (pathText path ++ ·) ++ after) ∧
      (problems (script.withPart path (.dict [("op", .str "get")]))).map Problem.message =
        ["root.seq[0].cond[0].then: get node missing 'var' field",
          "root.seq[0].cond[1]: clause missing 'then' field",
          "root.seq[1]: unsupported op 'frob'"] := by
  intro clauses script path
  let cond := Value.dict [("op", .str "cond"), ("cond", clauses)]
  -- The step goes on to its conditional, and that one to the body.
  have step : .visit [.field "seq", .item 0] cond ∈ findings script := List.mem_cons_self
  have body : .visit [.field "cond", .item 0, .field "then"] .null ∈ findings cond :=
    List.mem_cons_of_mem _ List.mem_cons_self
  have met : (path, .null) ∈ visited script :=
    mem_visited step (mem_visited body (mem_visited_self .null))
  exact ⟨met, messages_compose met, by decide +kernel⟩

end Messages
end TrialScript

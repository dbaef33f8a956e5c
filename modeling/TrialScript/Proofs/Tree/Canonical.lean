import TrialScript.Proofs.Json.RoundTrip
import TrialScript.Proofs.Tree.Literals
import TrialScript.Proofs.Tree.Ordered
import TrialScript.Proofs.Tree.RoundTrip

/-! Canonical texts of scripts: each is parsed into its script again, and no two scripts share one. -/

namespace TrialScript

/-- The items and fields of a value that JSON has are such values. -/
theorem Value.JsonShaped.hereditary : Value.Hereditary Value.JsonShaped where
  item shaped member := by
    -- A list has its own items, and a mapping its own fields.
    cases shaped with
    | list each => exact each _ member
  field shaped member := by
    cases shaped with
    | dict _ each => exact each _ member

namespace Tree

section Shape

/-- What holds of all literals of a script holds of those of its parts. -/
theorem EachLiteral.part {good : Value → Prop} {tree part : Tree} (each : tree.EachLiteral good)
    (member : part ∈ tree.parts) : part.EachLiteral good :=
  fun value inside => each value (mem_nodes_of_part member inside)

/-- A node has the shape of JSON if its fields have different names and hold such values. -/
theorem jsonShaped_node (op : Operation) {fields : Table Value}
    (each : ∀ field ∈ fields, field.2.JsonShaped)
    (distinct : ("op" :: fields.names).Nodup := by simp [Table.names]) :
    (node op fields).JsonShaped :=
  .dict distinct (List.forall_mem_cons.mpr ⟨.scalar _, each⟩)

/-- What is written for a script has the shape of JSON if its literals do. -/
theorem jsonShaped_toValue {tree : Tree} (each : tree.EachLiteral Value.JsonShaped) :
    tree.toValue.JsonShaped := by
  -- The induction is over the parts, for which the fields of a node are written.
  induction tree using induction_parts with
  | step tree ih =>
    have parts (part : Tree) (member : part ∈ tree.parts) : part.toValue.JsonShaped :=
      ih part member (each.part member)
    cases tree with
    | scalar value => exact .scalar value
    | literal value =>
      exact jsonShaped_node _ (by simpa using each value (mem_nodes_self _))
    | lookup name => exact jsonShaped_node _ (by simp [Value.JsonShaped.scalar])
    | array items | sequence items | connective _ items | fold _ items =>
      have listed : (Value.list (toValues items)).JsonShaped := by
        refine .list fun script member => ?_
        obtain ⟨item, inside, rfl⟩ := mem_toValues.mp member
        exact parts item inside
      exact jsonShaped_node _ (by simpa using listed)
    | cond clauses =>
      have listed : (Value.list (clauseValues clauses)).JsonShaped := by
        refine .list fun script member => ?_
        obtain ⟨clause, inside, rfl⟩ := mem_clauseValues.mp member
        obtain ⟨guard, body⟩ := forall_clauses parts clause inside
        exact .dict (by simp [Table.names]) (by simp [guard, body])
      exact jsonShaped_node _ (by simpa using listed)
    | sample choices draws unit =>
      simp only [Tree.parts, List.forall_mem_cons] at parts
      -- The number of draws is written or not.
      rw [toValue]
      cases draws.isNull with
      | true => exact jsonShaped_node _ (by simp [parts])
      | false => exact jsonShaped_node _ (by simp [parts])
    | assign name value =>
      simp only [Tree.parts, List.forall_mem_cons] at parts
      exact jsonShaped_node _ (by simp [parts, Value.JsonShaped.scalar])
    | _ =>
      simp only [Tree.parts, List.forall_mem_cons] at parts
      exact jsonShaped_node _ (by simp [parts])

end Shape

section Order

variable {tree tree' : Tree}

/-- Literals that are in order stay so. -/
theorem ordered_ordered (tree : Tree) : tree.ordered.ordered = tree.ordered := by
  -- What is written for the script stays as it is once its fields are in order.
  have once := read?_ordered tree.toValue
  have twice := read?_ordered tree.toValue.ordered
  rw [Value.ordered_ordered, once, read?_toValue] at twice
  exact (Option.some.inj twice).symm

end Order

/-- A script in the shape of JSON is parsed from its canonical text as from its fields in order. -/
theorem ofJson_canonicalText {script : Value} {tree : Tree} (shaped : script.JsonShaped)
    (parsed : parse script = .ok tree) : ofJson (canonicalText script) = .ok tree.ordered := by
  rw [ofJson, canonicalText, shaped.plain_eq, Json.read?_write shaped]
  exact parse_ordered parsed

/--
Canonical texts tell scripts apart up to the order of fields in literals, and nothing else.

A parsed script without dates is parsed again from its own canonical text and from that of its tree,
in both cases into the tree with its literals in order. Two such trees have the same canonical text
exactly if they differ in that order only, where numbers keep their kind: one, one as a float and
truth are equal as values, but they are different in a script and have different texts.
-/
theorem canonicalText_round_trip {script other : Value} {tree tree' : Tree}
    (shaped : script.JsonShaped) (shaped' : other.JsonShaped)
    (parsed : parse script = .ok tree) (parsed' : parse other = .ok tree') :
    ofJson (canonicalText script) = .ok tree.ordered ∧
    ofJson (canonicalText tree.toValue) = .ok tree.ordered ∧
    tree.ordered.Reordered tree ∧
    (canonicalText tree.toValue = canonicalText tree'.toValue ↔ tree.Reordered tree') := by
  have written := jsonShaped_toValue (eachLiteral_of_parse Value.JsonShaped.hereditary shaped parsed)
  have written' := jsonShaped_toValue (eachLiteral_of_parse Value.JsonShaped.hereditary shaped' parsed')
  have again := ofJson_canonicalText written (parse_toValue tree)
  refine ⟨ofJson_canonicalText shaped parsed, again, ordered_ordered tree, ?_, ?_⟩
  · -- One text is parsed into both scripts.
    intro same
    rw [same, ofJson_canonicalText written' (parse_toValue tree')] at again
    exact (Except.ok.inj again).symm
  · exact Reordered.canonicalText_eq

/-- Literals that differ in the kind of a number are equal but have texts of their own. -/
theorem canonicalText_round_trip_kinds :
    let literal (number : Value) : Value := .dict [("b", number), ("a", .str "\n")]
    let script (number : Value) : Value :=
      .dict [("value", literal number), ("op", .str "literal")]
    let tree (number : Value) : Tree := .literal (literal number)
    let one : Value := .int 1
    let float : Value := .float (.ofDecimal false 1 0)
    (script one).JsonShaped ∧ (script float).JsonShaped ∧
      parse (script one) = .ok (tree one) ∧ parse (script float) = .ok (tree float) ∧
      ofJson (canonicalText (script one)) = .ok (.literal (.dict [("a", .str "\n"), ("b", one)])) ∧
      ofJson (canonicalText (tree one).toValue) =
        .ok (.literal (.dict [("a", .str "\n"), ("b", one)])) ∧
      (tree one).ordered.Reordered (tree one) ∧
      (tree one).equals (tree float) = true ∧
      canonicalText (tree one).toValue ≠ canonicalText (tree float).toValue := by
  -- The two literals have the same keys, so only the kind of the number tells them apart.
  intro literal script tree one float
  have shaped (number : Scalar) : (script (.scalar number)).JsonShaped := by
    have literalShaped : (literal (.scalar number)).JsonShaped :=
      .dict (by simp [Table.names]) (by simp [Value.JsonShaped.scalar])
    exact .dict (by simp [Table.names]) (by simp [Value.JsonShaped.scalar, literalShaped])
  have parsed (number : Scalar) : parse (script (.scalar number)) = .ok (tree (.scalar number)) := rfl
  obtain ⟨back, again, alike, texts⟩ := canonicalText_round_trip (shaped (.num (.int 1)))
    (shaped (.num (.float (.ofDecimal false 1 0)))) (parsed _) (parsed _)
  have inOrder : (literal one).ordered = .dict [("a", .str "\n"), ("b", one)] := by decide +kernel
  have treeInOrder : (tree one).ordered = .literal (.dict [("a", .str "\n"), ("b", one)]) :=
    congrArg Tree.literal inOrder
  have differ : (literal one).ordered ≠ (literal float).ordered := by decide +kernel
  refine ⟨shaped _, shaped _, parsed _, parsed _, treeInOrder ▸ back, treeInOrder ▸ again, alike,
    by decide +kernel, fun same => ?_⟩
  exact differ (Tree.literal.inj (texts.mp same))

end Tree
end TrialScript

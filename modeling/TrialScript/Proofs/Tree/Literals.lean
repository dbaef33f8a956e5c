import TrialScript.Proofs.Tree.Composition
import TrialScript.Proofs.Tree.Parsing

/-! Literals of scripts: what holds of a value and of all inside it holds of the literals of its tree. -/

namespace TrialScript

/-- A property that values pass on to their items and fields. -/
structure Value.Hereditary (good : Value → Prop) : Prop where
  item : ∀ {items item}, good (.list items) → item ∈ items → good item
  field : ∀ {fields : Table Value} {field}, good (.dict fields) → field ∈ fields → good field.2

variable {good : Value → Prop}

/-- What values pass on to their items and fields holds at every place inside them. -/
theorem Value.Hereditary.part? (inherits : Value.Hereditary good) {value part : Value}
    {path : List Segment} (holds : good value) (found : value.part? path = some part) :
    good part := by
  -- The induction is on the path, each step of which leads into a list or into a mapping.
  induction path generalizing value with
  | nil =>
    rw [part?_nil] at found
    cases found
    exact holds
  | cons segment path ih =>
    cases value with
    | list items =>
      cases segment with
      | item index =>
        obtain ⟨item, there, found⟩ := Option.bind_eq_some_iff.mp found
        exact ih (inherits.item holds (List.mem_of_getElem? there)) found
      | field key => cases found
    | dict fields =>
      cases segment with
      | item index => cases found
      | field key =>
        obtain ⟨value, there, found⟩ := Option.bind_eq_some_iff.mp found
        exact ih (inherits.field holds (Table.mem_of_lookup? there)) found
    | scalar | date | datetime => simp [Value.part?] at found

namespace Tree

/-- A script whose literals have a property. -/
def EachLiteral (good : Value → Prop) (tree : Tree) : Prop :=
  ∀ value, .literal value ∈ tree.nodes → good value

/-- What holds of a script and of all that is inside it holds of whatever the traversal meets. -/
theorem hereditary_visited (inherits : Value.Hereditary good) {script part : Value}
    {path : List Segment} (holds : good script) (met : (path, part) ∈ visited script) :
    good part := by
  -- Every part that the traversal goes to stands at a place inside what it comes from.
  refine induction_visited (motive := fun script _ met => good script → good met)
    (fun _ holds => holds) ?_ met holds
  intro script outer part inner met visit onward holds
  exact onward (inherits.part? holds (subscript_of_findings visit).part?)

/-- What is read as a literal holds its value in a field. -/
theorem field_of_read?_literal {part value : Value} (reads : read? part = some (.literal value)) :
    ∃ fields : Table Value, part = .dict fields ∧ fields.lookup? "value" = some value := by
  cases part with
  | scalar constant => cases reads
  | list items => simp [read?] at reads
  | dict fields => exact ⟨fields, rfl, lookup?_of_read?_literal reads⟩
  | date day | datetime moment => cases reads

/-- What holds of a parsed script and of all that is inside it holds of every literal of the tree. -/
theorem eachLiteral_of_parse (inherits : Value.Hereditary good) {script : Value} {tree : Tree}
    (holds : good script) (parsed : parse script = .ok tree) : tree.EachLiteral good := by
  intro value inside
  -- A literal is no part that was left out, so it is read from a part that the traversal meets.
  rcases visited_of_mem_nodes (parse_eq_ok_iff.mp parsed).2 inside with absent | ⟨path, part, met, reads⟩
  · cases absent
  · obtain ⟨fields, rfl, found⟩ := field_of_read?_literal reads
    exact inherits.field (hereditary_visited inherits holds met) (Table.mem_of_lookup? found)

end Tree
end TrialScript

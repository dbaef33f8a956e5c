import TrialScript.Tree.Basic

/-! The parts of a script, induction over them, and the names that a script assigns. -/

namespace TrialScript.Tree

/-- The scripts directly inside a script, in the order in which they are written. -/
def parts : Tree → List Tree
  | .scalar _ | .literal _ | .lookup _ => []
  | .array items => items
  | .assign _ value => [value]
  | .sequence steps => steps
  | .cond clauses => clauses.flatMap fun (guard, body) => [guard, body]
  | .binary _ left right => [left, right]
  | .connective _ operands => operands
  | .fold _ operands => operands
  | .unary _ operand => [operand]
  | .randomRange _ low high unit => [low, high, unit]
  | .bernoulliTrial probability unit => [probability, unit]
  | .bernoulliFilter probability choices unit => [probability, choices, unit]
  | .uniformChoice choices unit => [choices, unit]
  | .weightedChoice choices weights unit => [choices, weights, unit]
  | .sample choices draws unit => [choices, draws, unit]
  | .index base key => [base, key]
  | .includes collection item => [collection, item]

/-- A part is smaller than the script that it is a part of. -/
theorem sizeOf_lt_of_mem_parts {part tree : Tree} (member : part ∈ tree.parts) :
    sizeOf part < sizeOf tree := by
  cases tree with
  | array items | sequence items | connective _ items | fold _ items =>
    have := List.sizeOf_lt_of_mem (show part ∈ items from member)
    simp only [array.sizeOf_spec, sequence.sizeOf_spec, connective.sizeOf_spec, fold.sizeOf_spec]
    omega
  | cond clauses =>
    -- A guard or a body is smaller than its clause, which is smaller than the list of clauses.
    simp only [parts, List.mem_flatMap] at member
    obtain ⟨⟨guard, body⟩, inside, side⟩ := member
    have := List.sizeOf_lt_of_mem inside
    simp only [List.mem_cons, List.not_mem_nil, or_false] at side
    simp only [Prod.mk.sizeOf_spec] at this
    simp only [cond.sizeOf_spec]
    rcases side with rfl | rfl <;> omega
  | scalar | literal | lookup => simp [parts] at member
  -- With a fixed number of parts, each of them is one of the arguments.
  | assign | unary =>
    simp only [parts, List.mem_singleton] at member
    subst member
    simp only [assign.sizeOf_spec, unary.sizeOf_spec]
    omega
  | binary | bernoulliTrial | uniformChoice | index | includes =>
    simp only [parts, List.mem_cons, List.not_mem_nil, or_false] at member
    rcases member with rfl | rfl <;> simp only [binary.sizeOf_spec, bernoulliTrial.sizeOf_spec,
      uniformChoice.sizeOf_spec, index.sizeOf_spec, includes.sizeOf_spec] <;> omega
  | randomRange | bernoulliFilter | weightedChoice | sample =>
    simp only [parts, List.mem_cons, List.not_mem_nil, or_false] at member
    rcases member with rfl | rfl | rfl <;> simp <;> omega

/-- What holds of a script once it holds of all its parts holds of every script. -/
theorem induction_parts {motive : Tree → Prop}
    (step : ∀ tree, (∀ part ∈ tree.parts, motive part) → motive tree) (tree : Tree) :
    motive tree :=
  step tree fun part _ => induction_parts step part
termination_by sizeOf tree
decreasing_by exact sizeOf_lt_of_mem_parts ‹_›

/-- A script and everything inside it. -/
def nodes (tree : Tree) : List Tree :=
  tree :: tree.parts.attach.flatMap fun ⟨part, _⟩ => nodes part
termination_by sizeOf tree
decreasing_by exact sizeOf_lt_of_mem_parts ‹_›

/-- The nodes of a script are the script itself and the nodes of its parts. -/
theorem nodes_eq (tree : Tree) : tree.nodes = tree :: tree.parts.flatMap nodes := by
  -- Attaching the proof of membership to each part changes none of the parts.
  rw [nodes]
  simp [List.flatMap_subtype]

/-- A script is one of its own nodes. -/
@[simp] theorem mem_nodes_self (tree : Tree) : tree ∈ tree.nodes := by
  rw [nodes_eq]
  exact List.mem_cons_self

/-- Everything inside a part is inside the script. -/
theorem mem_nodes_of_part {node part tree : Tree} (member : part ∈ tree.parts)
    (inside : node ∈ part.nodes) : node ∈ tree.nodes := by
  rw [nodes_eq]
  exact List.mem_cons_of_mem _ (List.mem_flatMap.mpr ⟨part, member, inside⟩)

/-- The parts of a node inside a script are inside that script. -/
theorem part_mem_nodes {part node tree : Tree} (inside : node ∈ tree.nodes)
    (member : part ∈ node.parts) : part ∈ tree.nodes := by
  induction tree using induction_parts with
  | step tree ih =>
    rw [nodes_eq, List.mem_cons, List.mem_flatMap] at inside
    rcases inside with rfl | ⟨between, outer, inner⟩
    -- The node is the script itself, or it is inside one of the parts.
    · exact mem_nodes_of_part member (mem_nodes_self part)
    · exact mem_nodes_of_part outer (ih between outer inner)

/-- The name that a node assigns itself. -/
def ownName? : Tree → Option String
  | .assign name _ => some name
  | _ => none

/-- The names that a script assigns anywhere. -/
def assigned (tree : Tree) : List String :=
  tree.nodes.filterMap ownName?

/-- A script assigns a name itself or in one of its parts. -/
theorem mem_assigned {name : String} {tree : Tree} :
    name ∈ tree.assigned ↔ tree.ownName? = some name ∨
      ∃ part ∈ tree.parts, name ∈ part.assigned := by
  -- The nodes split into the script itself and the nodes of its parts.
  simp only [assigned, nodes_eq tree, List.mem_filterMap, List.mem_cons, List.mem_flatMap]
  constructor
  · rintro ⟨node, rfl | ⟨part, member, inside⟩, named⟩
    · exact .inl named
    · exact .inr ⟨part, member, node, inside, named⟩
  · rintro (named | ⟨part, member, node, inside, named⟩)
    · exact ⟨tree, .inl rfl, named⟩
    · exact ⟨node, .inr ⟨part, member, inside⟩, named⟩

end TrialScript.Tree

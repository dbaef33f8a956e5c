import TrialScript.Proofs.Tree.Literals
import TrialScript.Proofs.Value.Keyed

/-! Scripts whose literals name every field once: the trees of all written scripts that do. -/

namespace TrialScript

/-- The items and fields of a value that names every field once do so as well. -/
theorem Value.Keyed.hereditary : Value.Hereditary Value.Keyed where
  item keyed member := by
    -- A list has its own items, and a mapping its own fields.
    cases keyed with
    | list each => exact each _ member
  field keyed member := by
    cases keyed with
    | dict _ each => exact each _ member

namespace Tree

/-- A script whose literals have mappings that name every field once. -/
def Keyed (tree : Tree) : Prop :=
  ∀ value, .literal value ∈ tree.nodes → value.Keyed

/-- The tree of a parsed script that names its fields once is keyed. -/
theorem keyed_of_parse {script : Value} {tree : Tree} (keyed : script.Keyed)
    (parsed : parse script = .ok tree) : tree.Keyed :=
  eachLiteral_of_parse Value.Keyed.hereditary keyed parsed

end Tree
end TrialScript

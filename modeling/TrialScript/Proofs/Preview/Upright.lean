import TrialScript.Proofs.Description.Upright
import TrialScript.Proofs.Preview.Expressions
import TrialScript.Proofs.Preview.Lasting

/-! Previewed ranges have their ends in order, unless arithmetic on a range turns them around. -/

namespace TrialScript

open Description (Level Upright)

namespace Tree

/-- Every number that a script draws lies between integers in order. -/
def DrawsInOrder (tree : Tree) : Prop :=
  ∀ (kind : RangeKind) (low high unit : Tree), .randomRange kind low high unit ∈ tree.nodes →
    ∃ least most : Int, low.integer? = some least ∧ high.integer? = some most ∧ least ≤ most

/-- A preview comes to a calculation that inverts a range, of operands with none inverted. -/
inductive Overturns (tree : Tree) (store : Store Description) : Prop where
  | intro {depth : Nat} {node : Tree} {inner after : Store Description}
      {described : List Description} {function : Arithmetic} {left right : Description}
      (reached : Reaches depth tree store node inner)
      (listed : (previewItems (node.surveyed inner)).run inner = (.ok described, after))
      (calculates : Calculates function left right node described)
      (upright : left.Upright) (upright' : right.Upright)
      (inverts : left.Inverts function right) : Overturns tree store

/-- A written integer is described by itself. -/
theorem preview_integer {tree : Tree} {whole : Int} (written : tree.integer? = some whole)
    (store : Store Description) :
    (preview tree).run store = (.ok (.atom (.int whole)), store) := by
  unfold integer? at written
  split at written <;> cases written <;> rfl

end Tree

/-- A number drawn between integers in order has a level description. -/
theorem level_describeRange {kind : RangeKind} {low high unit : Tree}
    {store after : Store Description} {least most : Description} {a b : Int}
    (atLeast : low.integer? = some a) (atMost : high.integer? = some b) (ordered : a ≤ b)
    (listed : (previewItems ((Tree.randomRange kind low high unit).surveyed store)).run store =
      (.ok [least, most], after)) : (describeRange kind least most).Level := by
  -- Both ends are described by themselves, and nothing is recorded.
  have ends : (previewItems [low, high]).run store =
      (.ok [.atom (.int a), .atom (.int b)], store) := by
    simp only [previewItems, Stateful.run_bind, Tree.preview_integer atLeast,
      Tree.preview_integer atMost, Stateful.run_pure]
  cases ends.symm.trans listed
  exact .range (Number.int_atMost_int ordered)

/-- A preview that overturns no range records only level descriptions. -/
theorem level_preview {tree : Tree} {store : Store Description}
    (everywhere : store.Everywhere Level) (drawn : tree.DrawsInOrder)
    (steady : ¬ tree.Overturns store) :
    Leaves (Store.Everywhere Level) Level (preview tree) store := by
  refine preview_leaves Level.hereditary.keptByMerging everywhere fun reached held listed each => ?_
  refine Level.composed.made held (fun value _ => .ofLiteral value) each ?_ ?_
  · -- Where nothing is overturned, the result of a calculation is level as its operands are.
    intro function left right calculates first second
    refine first.combine second fun inverts => steady ?_
    exact .intro reached listed calculates first.upright second.upright inverts
  · intro kind low high unit least most same two
    subst same two
    obtain ⟨a, b, atLeast, atMost, ordered⟩ := drawn kind low high unit reached.mem_nodes
    exact level_describeRange atLeast atMost ordered listed

/-- What is listed of a script is what its preview has left. -/
theorem eq_of_inspectTree {tree : Tree} {inputs : Inputs Description} {entries : Table Description}
    (gave : inspectTree tree inputs = .ok entries) :
    entries = ((preview tree).run inputs.symbols).2.toTable := by
  -- The preview may stop or not: only a result is listed, and it is not looked at.
  unfold inspectTree at gave
  cases ran : (preview tree).run inputs.symbols with
  | mk outcome after =>
    rw [ran] at gave
    cases outcome <;> cases gave
    rfl

/--
Ranges are inverted by arithmetic alone.

Every drawn number lies between integers in order, and there are no inputs. Then the ends of every
range that is described are in order, unless the preview comes to a calculation that inverts one.
This applies a function to the ends of two parts that are in order themselves. It is none that
takes the smaller or larger of two ranges, adds them, takes one number from a range, multiplies
ends that are not below zero or a range by such a number, or divides by one above zero, where the
ends are numbers of one kind and none is undefined.
-/
theorem inspect_upright {script : Value} {tree : Tree} {entries : Table Description}
    (parsed : Tree.parse script = .ok tree) (drawn : tree.DrawsInOrder)
    (gave : inspect script (.ok .none) = .ok entries) :
    (∀ entry ∈ entries, entry.2.Upright) ∨ tree.Overturns (.ofBase .empty) := by
  by_cases steady : tree.Overturns (.ofBase .empty)
  · exact .inr steady
  -- The preview starts without variables, and keeps all descriptions level.
  have empty : (Store.ofBase .empty : Store Description).Everywhere Level :=
    ⟨trivial, fun _ member => absurd member List.not_mem_nil⟩
  obtain ⟨left, -⟩ := level_preview empty drawn steady
  refine .inl fun entry member => ?_
  rw [inspect, parsed] at gave
  have listed : entries = _ := eq_of_inspectTree gave
  subst listed
  exact (left.of_mem_toTable member).upright

/-- Adding to a drawn integer overturns nothing, and its range stays in order. -/
theorem inspect_upright_sum :
    let draw : Value := .dict [("op", .str "randomInteger"), ("min", .int 0), ("max", .int 5),
      ("unit", .int 1)]
    let sum : Value := .dict [("op", .str "sum"), ("values", .list [draw, .int 3])]
    let script : Value := .dict [("op", .str "set"), ("var", .str "x"), ("value", sum)]
    let number (n : Int) : Tree := .scalar (.num (.int n))
    let added : Tree :=
      .fold .sum [.randomRange .integer (number 0) (number 5) (number 1), number 3]
    let tree : Tree := .assign "x" added
    let range : Description := .range .integer (.int 3) (.int 8)
    Tree.parse script = .ok tree ∧ tree.DrawsInOrder ∧
      inspect script (.ok .none) = .ok [("x", range)] ∧ range.Upright := by
  intro draw sum script number added tree range
  have parsed : Tree.parse script = .ok tree := rfl
  have gave : inspect script (.ok .none) = .ok [("x", range)] := rfl
  have nodes : ∀ node ∈ tree.nodes, node = .assign "x" added ∨ node = .fold .sum
      [.randomRange .integer (number 0) (number 5) (number 1), number 3] ∨
      node = .randomRange .integer (number 0) (number 5) (number 1) ∨
      ∃ n, node = .scalar (.num (.int n)) := by
    simp only [tree, added, number, Tree.nodes_eq, Tree.parts, List.flatMap_cons, List.flatMap_nil,
      List.append_nil, List.cons_append, List.nil_append, List.forall_mem_cons]
    simp
  -- The one number that is drawn lies between zero and five.
  have drawn : tree.DrawsInOrder := by
    intro kind low high unit member
    obtain impossible | impossible | same | ⟨n, impossible⟩ := nodes _ member
    · cases impossible
    · cases impossible
    · cases same
      exact ⟨0, 5, rfl, rfl, by decide⟩
    · cases impossible
  have steady : ¬ tree.Overturns (.ofBase .empty) := by
    intro overturns
    obtain ⟨reached, listed, calculates, -, -, inverts⟩ := overturns
    obtain rfl | rfl | rfl | ⟨n, rfl⟩ := nodes _ reached.mem_nodes
    · cases calculates
    · -- The only calculation adds three to both ends.
      have described (store : Store Description) : (previewItems [.randomRange .integer (number 0)
          (number 5) (number 1), number 3]).run store =
            (.ok [.range .integer (.int 0) (.int 5), .atom (.int 3)], store) := rfl
      cases calculates with
      | fold folded =>
        have same := (congrArg Prod.fst (described _)).symm.trans (congrArg Prod.fst listed)
        obtain ⟨rfl, others⟩ := List.cons.inj (Except.ok.inj same)
        obtain ⟨rfl, last⟩ | ⟨_, none⟩ := List.singleton_eq_append_iff.mp others
        · cases last
          cases folded
          obtain ⟨first, second, -, lower, upper, inverted, -⟩ := inverts
          obtain ⟨-, rfl, rfl⟩ := (Description.Bounds.range _ _ _).part_iff.mp first
          obtain ⟨-, rfl, rfl⟩ := (Description.Bounds.number _).part_iff.mp second
          cases lower
          cases upper
          have ordered := Number.int_atMost_int (show (0 : Int) + 3 ≤ 5 + 3 by decide)
          exact Bool.false_ne_true (inverted.symm.trans ordered)
        · exact absurd none (List.cons_ne_nil _ _)
    · cases calculates
    · cases calculates
  refine ⟨parsed, drawn, gave, ?_⟩
  exact (inspect_upright parsed drawn gave).resolve_right steady ("x", range) List.mem_cons_self

/-- A wider range that is taken from a narrower one leaves a range whose ends are not in order. -/
theorem not_upright_difference :
    ¬ ∀ (script : Value) (tree : Tree) (entries : Table Description),
      Tree.parse script = .ok tree → tree.DrawsInOrder →
        inspect script (.ok .none) = .ok entries → ∀ entry ∈ entries, entry.2.Upright := by
  -- Both draws are in order, and the ends of their difference are taken end by end.
  intro always
  let draw (most unit : Int) : Value := .dict [("op", .str "randomInteger"), ("min", .int 0),
    ("max", .int most), ("unit", .int unit)]
  let difference : Value := .dict [("op", .str "-"), ("left", draw 1 1), ("right", draw 10 2)]
  let script : Value := .dict [("op", .str "set"), ("var", .str "x"), ("value", difference)]
  let number (n : Int) : Tree := .scalar (.num (.int n))
  let drawn (most unit : Int) : Tree :=
    .randomRange .integer (number 0) (number most) (number unit)
  let tree : Tree := .assign "x" (.binary (.calculate .subtract) (drawn 1 1) (drawn 10 2))
  have inOrder : tree.DrawsInOrder := by
    intro kind low high unit member
    simp only [tree, drawn, number, Tree.nodes_eq, Tree.parts, List.flatMap_cons, List.flatMap_nil,
      List.append_nil, List.cons_append, List.nil_append, List.mem_cons, List.not_mem_nil,
      Tree.randomRange.injEq, reduceCtorEq, false_or, or_false] at member
    rcases member with ⟨-, rfl, rfl, -⟩ | ⟨-, rfl, rfl, -⟩
    · exact ⟨0, 1, rfl, rfl, by decide⟩
    · exact ⟨0, 10, rfl, rfl, by decide⟩
  have upright := always script tree [("x", .range .integer (.int 0) (.int (-9)))] rfl inOrder rfl
    _ List.mem_cons_self
  have ordered := Number.le_of_int_atMost (Description.upright_range.mp upright)
  exact absurd ordered (by decide)

end TrialScript

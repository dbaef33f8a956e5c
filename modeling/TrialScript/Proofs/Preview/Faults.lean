import TrialScript.Proofs.Faults
import TrialScript.Proofs.Preview.Visits

/-! Faults of a preview: those of arithmetic, and values of kinds that do not go together. -/

namespace TrialScript

/-- The faults of a preview, which calculates with values of any kind, texts and lists included. -/
def previewFaults : List FaultKind := [.overflow, .undefinedValue, .wrongKind, .exhausted]

namespace FailsOnly

variable {α β σ : Type}

/-- The faults of arithmetic are among those of a preview. -/
theorem described {result : Except Fault α} (first : FailsOnly numericFaults result) :
    FailsOnly previewFaults result :=
  first.mono (by decide)

section Values

variable {left right : Value}

/-- A count is refused only as an overflow. -/
theorem repetitions {count : Int} : FailsOnly previewFaults (repetitions count) := by
  unfold TrialScript.repetitions
  split
  · exact .ok _
  · exact .error (by decide)

/-- Items are refused only over their count or for the length of their repetition. -/
theorem repeatItems {count : Int} {items : List α} :
    FailsOnly previewFaults (repeatItems count items) := by
  -- Nothing repeated is nothing; otherwise the run may be longer than any that is held.
  refine .bind repetitions fun times => ?_
  split
  · exact .ok _
  · refine .guard ?_ (.ok _)
    decide

/-- A text is refused only over its count or for the length of its repetition. -/
theorem repeatText {count : Int} {text : String} :
    FailsOnly previewFaults (repeatText count text) := by
  -- The length must still be a number that can count before the text is put together.
  refine .bind repetitions fun times => ?_
  refine .guard ?_ (.bind repeatItems fun _ => .ok _)
  decide

/-- Values that do not count as numbers are of the wrong kind for a function of numbers. -/
theorem calculate {function : Number → Number → Except Fault Number}
    (applies : ∀ x y, FailsOnly numericFaults (function x y)) :
    FailsOnly previewFaults (Value.calculate function left right) := by
  unfold Value.calculate
  split
  · exact .bind (described (applies _ _)) fun _ => .ok _
  · exact .error (by decide)

/-- Texts and lists are joined, and only numbers can fault in a sum. -/
theorem addValues : FailsOnly previewFaults (left.add right) := by
  -- Two texts and two lists have no fault, and everything else counts as a number or is refused.
  unfold Value.add
  split
  · exact .ok _
  · exact .ok _
  · exact calculate fun _ _ => combine

/-- A repetition faults over its length, or over what is no count. -/
theorem repeatBy : FailsOnly previewFaults (left.repeatBy right) := by
  -- A text or a list is repeated by a value that counts, and nothing else is repeated.
  unfold Value.repeatBy
  split
  · split
    · exact .bind repeatText fun _ => .ok _
    · exact .error (by decide)
  · split
    · exact .bind repeatItems fun _ => .ok _
    · exact .error (by decide)
  · exact .error (by decide)

/-- A product is a repetition or arithmetic. -/
theorem multiplyValues : FailsOnly previewFaults (left.multiply right) := by
  -- A text or a list on either side is repeated by the other one.
  unfold Value.multiply
  split
  all_goals first | exact repeatBy | exact calculate fun _ _ => combine

/-- A remainder faults over values that are no numbers, or as that of numbers does. -/
theorem remainderValues : FailsOnly previewFaults (left.remainder right) := by
  -- The split is on which of the two count as numbers; over zero the dividend need not.
  unfold Value.remainder
  split
  · exact .bind (described remainder) fun _ => .ok _
  · split
    · exact .ok _
    · exact .error (by decide)
  · exact .bind (.map _ (described toFloat)) fun _ => .error (by decide)
  · exact .error (by decide)

/-- Values without an order have no extreme. -/
theorem whenOrdered {chosen : Option Value} : FailsOnly previewFaults (Value.whenOrdered chosen) := by
  cases chosen with
  | none => exact .error (by decide)
  | some value => exact .ok _

/-- Calculating with any two values has only the faults of a preview. -/
theorem onValues {function : Arithmetic} :
    FailsOnly previewFaults (function.onValues left right) := by
  -- Sums and products are also defined for texts and lists, and extremes for all with an order.
  cases function with
  | add => exact addValues
  | subtract => exact calculate fun _ _ => combine
  | multiply => exact multiplyValues
  | divide => exact calculate fun _ _ => divide
  | remainder => exact remainderValues
  | least | greatest => exact whenOrdered

/-- Rounding a value faults over what is no number. -/
theorem roundValue : FailsOnly previewFaults left.roundHalfAway := by
  unfold Value.roundHalfAway
  split
  · exact .bind (described roundHalfAway) fun _ => .ok _
  · exact .error (by decide)

end Values

section Descriptions

variable {function : Arithmetic}

mutual

/-- A description without a choice on its left side is combined with faults of a preview only. -/
theorem combineSimple (left right : Description) :
    FailsOnly previewFaults (Description.combineSimple function left right) := by
  -- The induction is on the right side, whose options are combined one by one.
  match right with
  | .atom y =>
    unfold Description.combineSimple
    split
    · exact .bind onValues fun _ => .ok _
    · exact .bind onValues fun _ => .bind onValues fun _ => .ok _
    · exact .ok _
  | .range kind low high =>
    unfold Description.combineSimple
    split
    · exact .bind onValues fun _ => .bind onValues fun _ => .ok _
    · exact .bind onValues fun _ => .bind onValues fun _ => .ok _
    · exact .ok _
  | .select limit options =>
    rw [Description.combineSimple]
    exact .bind (combineOptions left options) fun _ => .ok _
  | .array _ | .object _ | .union _ => exact .ok _

/-- The options on the right are combined with such faults only. -/
theorem combineOptions (left : Description) (options : List Description) :
    FailsOnly previewFaults (Description.combineOptions function left options) := by
  -- The induction is on the options; the first fault ends it.
  match options with
  | [] => exact .ok _
  | option :: rest =>
    rw [Description.combineOptions]
    exact .bind (combineSimple left option) fun _ => .bind (combineOptions left rest) fun _ => .ok _

end

mutual

/-- Combining any two descriptions has only the faults of a preview. -/
theorem combineDescriptions (left right : Description) :
    FailsOnly previewFaults (Description.combine function left right) := by
  -- The induction is on the left side, whose options are combined one by one.
  match left with
  | .select limit options =>
    rw [Description.combine]
    split
    · exact .bind (combineEach options right) fun _ => .ok _
    · exact .ok _
  | .atom value =>
    rw [Description.combine]
    split
    · exact combineSimple _ _
    · exact .ok _
  | .range kind low high =>
    rw [Description.combine]
    exact combineSimple _ _
  | .array _ | .object _ | .union _ => exact .ok _

/-- The options on the left are combined with such faults only. -/
theorem combineEach (options : List Description) (right : Description) :
    FailsOnly previewFaults (Description.combineEach function options right) := by
  -- The induction is on the options; the first fault ends it.
  match options with
  | [] => exact .ok _
  | option :: rest =>
    rw [Description.combineEach]
    exact .bind (combineDescriptions option right) fun _ =>
      .bind (combineEach rest right) fun _ => .ok _

end

mutual

/-- Rounding a description has only the faults of a preview. -/
theorem roundDescription (operand : Description) : FailsOnly previewFaults operand.round := by
  -- The induction is on the description, whose options and variants are rounded one by one.
  match operand with
  | .atom value =>
    rw [Description.round]
    split
    · exact .bind (described roundHalfAway) fun _ => .ok _
    · exact .ok _
  | .range .integer low high => exact .ok _
  | .range .float low high =>
    rw [Description.round]
    exact .bind roundValue fun _ => .bind roundValue fun _ => .ok _
  | .select limit options =>
    rw [Description.round]
    exact .bind (roundItems options) fun _ => .ok _
  | .union variants =>
    rw [Description.round]
    exact .bind (roundItems variants) fun _ => .ok _
  | .array _ | .object _ => exact .ok _

/-- Options and variants are rounded with such faults only. -/
theorem roundItems (items : List Description) :
    FailsOnly previewFaults (Description.roundItems items) := by
  -- The induction is on the items; the first fault ends it.
  match items with
  | [] => exact .ok _
  | item :: rest =>
    rw [Description.roundItems]
    exact .bind (roundDescription item) fun _ => .bind (roundItems rest) fun _ => .ok _

end

/-- Describing an operation on one operand has only the faults of a preview. -/
theorem describeUnary {operand : Description} {op : UnaryOp} :
    FailsOnly previewFaults (describeUnary operand op) := by
  cases op with
  | round => exact roundDescription operand
  | negate => exact combineDescriptions operand _
  | finish | not | length => exact .ok _

/-- Describing a fold has only the faults of a preview. -/
theorem describeFold {op : FoldOp} {operands : List Description} :
    FailsOnly previewFaults (describeFold op operands) := by
  cases operands with
  | nil => exact .ok _
  | cons first rest => exact .foldlM (fun total item => combineDescriptions total item) first

/-- Reading a field of a described value faults only over a wrong kind of object. -/
theorem describeField {object : Value} {name : String} :
    FailsOnly previewFaults (describeField object name) := by
  -- Only something that is no mapping, and not seen to lack the name, is of the wrong kind.
  unfold TrialScript.describeField
  split
  · exact .ok _
  · split
    · exact .ok _
    · exact .error (by decide)

/-- Reading a part of something described has only the faults of a preview. -/
theorem describePart {base key : Description} :
    FailsOnly previewFaults (describePart base key) := by
  unfold TrialScript.describePart
  split
  · -- A key that is no number has no position; any position may be outside the list.
    dsimp only
    split
    · refine .bind (.map _ (described toFloat)) fun _ => .bind (.ok _) fun chosen => ?_
      cases chosen <;> exact .ok _
    · refine .bind (.ok _) fun chosen => ?_
      cases chosen <;> exact .ok _
  · exact describeField
  · exact .ok _

/-- What a script makes of the descriptions of its parts fails with the faults of previews. -/
theorem made {tree : Tree} {store : Store Description} {described : List Description} :
    FailsOnly previewFaults (tree.made store described) := by
  -- The split follows the definition, in which only some operations calculate or look inside.
  unfold Tree.made
  split
  all_goals first
    | exact .ok _
    | exact combineDescriptions _ _
    | exact describeFold
    | exact describeUnary
    | exact describePart

/-- Bounds that have no order cannot be widened; everything else is merged. -/
theorem merge {left right : Description} :
    FailsOnly previewFaults (Description.merge left right) := by
  -- Only two ranges are widened, and widening compares bounds.
  have widens : ∀ low low' high high', FailsOnly previewFaults
      (Description.widen low low' high high') := by
    intro low low' high high'
    unfold Description.widen
    split
    · exact .ok _
    · exact .error (by decide)
  unfold Description.merge
  split
  all_goals first
    | exact .ok _
    | split
      · exact .bind (widens _ _ _ _) fun _ => .ok _
      · exact .ok _

/-- Joining the values of branches has only the faults of a merge. -/
theorem join {branches : List Description} :
    FailsOnly previewFaults (Description.join branches) := by
  -- Each step merges, or puts two exact values beside each other.
  refine .foldlM (fun left right => ?_) _
  unfold Description.joinStep
  split
  · exact merge
  · exact .ok _

end Descriptions
end FailsOnly

/-- Every run of a computation fails with faults of some kinds only. -/
def StopsOnly {σ α : Type} (kinds : List FaultKind) (computation : Stateful σ α) : Prop :=
  ∀ state, FailsOnly kinds (computation.run state).1

namespace StopsOnly

section Computations

variable {σ α β : Type} {kinds : List FaultKind}

/-- Giving a result is no fault. -/
theorem done (result : α) : StopsOnly kinds (pure result : Stateful σ α) :=
  fun _ => .ok result

/-- A step that does not look at the state faults as its result does. -/
theorem lift {result : Except Fault α} (checked : FailsOnly kinds result) :
    StopsOnly kinds (liftM result : Stateful σ α) :=
  fun _ => checked

/-- Reading the state is no fault. -/
theorem get : StopsOnly kinds (get : Stateful σ σ) :=
  fun state => .ok state

/-- Changing the state is no fault. -/
theorem modify (change : σ → σ) : StopsOnly kinds (modify change : Stateful σ Unit) :=
  fun _ => .ok ()

/-- Two computations in a row stop as one of them does. -/
theorem bind {first : Stateful σ α} {rest : α → Stateful σ β} (stops : StopsOnly kinds first)
    (next : ∀ result, StopsOnly kinds (rest result)) : StopsOnly kinds (first >>= rest) := by
  -- The rest runs on the state that the first computation left, or not at all.
  intro state
  have began := stops state
  rw [Stateful.run_bind]
  cases ran : first.run state with
  | mk outcome middle =>
    rw [ran] at began
    cases outcome with
    | ok result => exact next result middle
    | error fault => exact .error (began fault rfl)

end Computations

section Previews

/-- Describing a variable merges its entry, which alone can fault. -/
theorem describe {name : String} {description : Description} :
    StopsOnly previewFaults (describe name description) :=
  bind get fun _ => bind (lift .merge) fun _ => bind (modify _) fun _ => done _

/-- A branch stops as what runs in it does. -/
theorem inBranch {branch : Survey Description} (inside : StopsOnly previewFaults branch) :
    StopsOnly previewFaults (inBranch branch) := by
  -- The branch starts from the outer layers with a new one on top.
  intro outer
  have stops := inside outer.push
  rw [run_inBranch]
  cases ran : branch.run outer.push with
  | mk outcome inner =>
    rw [ran] at stops
    cases outcome with
    | ok result => exact .ok _
    | error fault => exact .error (stops fault rfl)

/-- Assigning what branches assigned has only the faults of a preview. -/
theorem assignJoined (assigned : Table (List Description)) :
    StopsOnly previewFaults (assignJoined assigned) := by
  -- The induction is on the names that were assigned.
  induction assigned with
  | nil => exact done ()
  | cons entry rest ih =>
    rw [TrialScript.assignJoined]
    exact bind (lift .join) fun _ => bind (modify _) fun _ => ih

/-- Items have only the faults of a preview if each of them does. -/
theorem previewItems {items : List Tree}
    (each : ∀ item ∈ items, StopsOnly previewFaults (preview item)) :
    StopsOnly previewFaults (previewItems items) := by
  -- The induction is on the items.
  induction items with
  | nil => exact done []
  | cons item rest ih =>
    obtain ⟨here, others⟩ := List.forall_mem_cons.mp each
    rw [TrialScript.previewItems]
    exact bind here fun _ => bind (ih others) fun _ => done _

/-- Clauses have only the faults of a preview if each guard and body does. -/
theorem previewClauses {clauses : List (Tree × Tree)}
    (each : ∀ guard body, (guard, body) ∈ clauses →
      StopsOnly previewFaults (preview guard) ∧ StopsOnly previewFaults (preview body)) :
    StopsOnly previewFaults (previewClauses clauses) := by
  -- The induction is on the clauses.
  induction clauses with
  | nil => exact done []
  | cons clause rest ih =>
    obtain ⟨guard, body⟩ := clause
    obtain ⟨guarded, branched⟩ := each guard body List.mem_cons_self
    have onward := ih fun guard body member => each guard body (List.mem_cons_of_mem _ member)
    rw [TrialScript.previewClauses]
    exact bind guarded fun _ => bind (inBranch branched) fun _ => bind onward fun _ => done _

/-- Describing a script has no other faults than those of previews. -/
theorem preview (tree : Tree) : StopsOnly previewFaults (preview tree) := by
  -- Each node describes its parts in order and stops as one of them does, or by itself.
  induction tree using Tree.induction_parts with
  | step tree ih =>
    cases tree with
    | assign name value => exact bind (ih value List.mem_cons_self) fun _ => describe
    | cond clauses =>
      have each := previewClauses fun guard body member =>
        ⟨ih guard (Tree.guard_mem_parts member), ih body (Tree.body_mem_parts member)⟩
      exact bind each fun _ => bind (assignJoined _) fun _ => done _
    | _ =>
      intro store
      rw [run_preview rfl (by simp)]
      refine bind (previewItems fun part member => ?_) (fun described => lift .made) store
      exact ih part (Tree.mem_parts_of_mem_surveyed member)

end Previews
end StopsOnly
end TrialScript

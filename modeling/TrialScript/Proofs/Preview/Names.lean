import TrialScript.Proofs.Evaluation.Inside
import TrialScript.Proofs.Preview.Branches

/-! The names in a preview: those of the inputs and of the assignments that the preview comes to. -/

namespace TrialScript

mutual

/-- Previewing a script from some variables comes to an assignment of a name. -/
inductive Surveys (name : String) : Tree → Store Description → Prop where
  | here (value : Tree) (store : Store Description) : Surveys name (.assign name value) store
  | inside {tree : Tree} {store : Store Description}
      (among : SurveysAmong name (tree.surveyed store) store) : Surveys name tree store
  | cond {clauses : List (Tree × Tree)} {store : Store Description}
      (clause : SurveysClauses name clauses store) : Surveys name (.cond clauses) store

/-- Previewing scripts in turn comes to an assignment of a name. -/
inductive SurveysAmong (name : String) : List Tree → Store Description → Prop where
  | first {part : Tree} {rest : List Tree} {store : Store Description}
      (surveys : Surveys name part store) : SurveysAmong name (part :: rest) store
  | later {part : Tree} {rest : List Tree} {store middle : Store Description} {found : Description}
      (ran : (preview part).run store = (.ok found, middle))
      (among : SurveysAmong name rest middle) :
      SurveysAmong name (part :: rest) store

/-- Previewing clauses in turn comes to an assignment of a name. -/
inductive SurveysClauses (name : String) : List (Tree × Tree) → Store Description → Prop where
  | guard {guard body : Tree} {rest : List (Tree × Tree)} {store : Store Description}
      (surveys : Surveys name guard store) : SurveysClauses name ((guard, body) :: rest) store
  | body {guard body : Tree} {rest : List (Tree × Tree)} {store middle : Store Description}
      {decided : Description} (guarded : (preview guard).run store = (.ok decided, middle))
      (surveys : Surveys name body middle.push) : SurveysClauses name ((guard, body) :: rest) store
  | later {guard body : Tree} {rest : List (Tree × Tree)} {store middle : Store Description}
      {decided : Description} (guarded : (preview guard).run store = (.ok decided, middle))
      (clause : SurveysClauses name rest middle) : SurveysClauses name ((guard, body) :: rest) store

end

section Locals

variable {name : String}

/-- A preview with a result adds exactly the names that it comes to. -/
def Tree.Records (name : String) (tree : Tree) : Prop :=
  ∀ {before after found}, (preview tree).run before = (.ok found, after) →
    (Table.has name after.locals = true ↔
      Table.has name before.locals = true ∨ Surveys name tree before)

/-- After one part, the rest comes to what the whole comes to besides that part. -/
theorem surveysAmong_cons {part : Tree} {rest : List Tree} {before middle : Store Description}
    {found : Description} (ran : (preview part).run before = (.ok found, middle)) :
    SurveysAmong name (part :: rest) before ↔
      Surveys name part before ∨ SurveysAmong name rest middle := by
  -- A preview has one result, so the rest starts from the same descriptions.
  constructor
  · intro among
    cases among with
    | first surveys => exact .inl surveys
    | later ran' among =>
      cases ran.symm.trans ran'
      exact .inr among
  · rintro (surveys | among)
    · exact .first surveys
    · exact .later ran among

/-- After one clause, the rest comes to what the whole comes to besides that clause. -/
theorem surveysClauses_cons {guard body : Tree} {rest : List (Tree × Tree)}
    {before middle : Store Description} {decided : Description}
    (guarded : (preview guard).run before = (.ok decided, middle)) :
    SurveysClauses name ((guard, body) :: rest) before ↔
      Surveys name guard before ∨ Surveys name body middle.push ∨
        SurveysClauses name rest middle := by
  -- A preview has one result, so the rest starts from the same descriptions.
  constructor
  · intro clause
    cases clause with
    | guard surveys => exact .inl surveys
    | body guarded' surveys =>
      cases guarded.symm.trans guarded'
      exact .inr (.inl surveys)
    | later guarded' clause =>
      cases guarded.symm.trans guarded'
      exact .inr (.inr clause)
  · rintro (surveys | surveys | clause)
    · exact .guard surveys
    · exact .body guarded surveys
    · exact .later guarded clause

/-- Visiting parts in turn adds the names that they come to. -/
theorem Visited.has_locals {parts : List Tree} {before after : Store Description}
    (visited : Visited parts before after) (records : ∀ part ∈ parts, part.Records name) :
    Table.has name after.locals = true ↔
      Table.has name before.locals = true ∨ SurveysAmong name parts before := by
  -- The induction is over the visits, each of which adds what its part comes to.
  induction visited with
  | nil store =>
    refine ⟨.inl, ?_⟩
    rintro (has | ⟨⟨⟩⟩)
    exact has
  | cons ran visited ih =>
    obtain ⟨here, others⟩ := List.forall_mem_cons.mp records
    rw [ih others, here ran, surveysAmong_cons ran, or_assoc]

/-- Gathering clauses adds the names of their guards, and the branches have those of the bodies. -/
theorem Gathered.has_locals {clauses : List (Tree × Tree)} {branches : List (Table Description)}
    {before after : Store Description} (gathered : Gathered clauses before branches after)
    (records : ∀ clause ∈ clauses, clause.1.Records name ∧ clause.2.Records name) :
    (Table.has name after.locals = true ∨ ∃ branch ∈ branches, Table.has name branch = true) ↔
      Table.has name before.locals = true ∨ SurveysClauses name clauses before := by
  -- Guards add to the layer itself, and bodies to layers that start empty.
  induction gathered with
  | nil store =>
    simp only [List.not_mem_nil, false_and, exists_false, or_false]
    refine ⟨.inl, ?_⟩
    rintro (has | ⟨⟨⟩⟩)
    exact has
  | @cons guard body rest branches before middle inner after decided given guarded branched
      gathered ih =>
    obtain ⟨⟨guardRecords, bodyRecords⟩, records⟩ := List.forall_mem_cons.mp records
    have others := ih records
    have empty : ¬ Table.has name middle.push.locals = true := by
      simp [Store.locals, Store.live, Table.has]
    have inBody := (bodyRecords branched).trans (or_iff_right empty)
    simp only [List.mem_cons, exists_eq_or_imp]
    rw [or_left_comm, others, inBody, guardRecords guarded, surveysClauses_cons guarded]
    simp only [or_assoc, or_left_comm]

/-- A preview with a result adds the names of the assignments that it comes to, and no others. -/
theorem records (name : String) (tree : Tree) : tree.Records name := by
  -- The induction is over the script, along the way in which its preview went.
  induction tree using Tree.induction_parts with
  | step tree ih =>
    intro before after found ran
    cases Previewed.of_run ran with
    | @assign key value _ middle given merged valued merges =>
      -- An assignment adds its own name to those that its value comes to.
      rw [Store.has_locals_assign, ih value (by simp [Tree.parts]) valued]
      constructor
      · rintro (rfl | has | surveys)
        · exact .inr (.here value before)
        · exact .inl has
        · exact .inr (.inside (.first surveys))
      · rintro (has | surveys)
        · exact .inr (.inl has)
        · cases surveys with
          | here => exact .inl rfl
          | inside among =>
            cases among with
            | first surveys => exact .inr (.inr surveys)
            | later _ among => cases among
    | @cond clauses _ middle _ branches gathered joined =>
      -- What the bodies assigned on their layers is assigned again by the join.
      have recorded := gathered.has_locals fun clause member =>
        ⟨ih _ (Tree.guard_mem_parts member), ih _ (Tree.body_mem_parts member)⟩
      rw [has_locals_of_assignJoined joined, mem_names_collected, recorded]
      refine or_congr_right ⟨.cond, fun surveys => ?_⟩
      cases surveys with
      | cond clause => exact clause
      | inside among => cases among
    | parts named plain visited =>
      rw [visited.has_locals fun part member => ih part (Tree.mem_parts_of_mem_surveyed member)]
      refine or_congr_right ⟨.inside, fun surveys => ?_⟩
      cases surveys with
      | here value => cases named
      | cond clause => exact absurd rfl (plain _)
      | inside among => exact among

end Locals

/-- The parts that a preview may pass over: units, probabilities, weights and numbers of draws. -/
def Tree.skipped : Tree → List Tree
  | .randomRange _ _ _ unit => [unit]
  | .bernoulliTrial probability unit => [probability, unit]
  | .bernoulliFilter probability _ unit => [probability, unit]
  | .uniformChoice _ unit => [unit]
  | .weightedChoice _ weights unit => [weights, unit]
  | .sample _ draws unit => [draws, unit]
  | _ => []

/-- Every part is visited on the same layer, unless it is passed over or a guard or a body. -/
theorem Tree.mem_surveyed_or_skipped {part tree : Tree} (store : Store Description)
    (member : part ∈ tree.parts) (plain : ∀ clauses, tree ≠ .cond clauses) :
    part ∈ tree.surveyed store ∨ part ∈ tree.skipped := by
  -- The operations with draws are the only ones that leave out a part.
  cases tree with
  | cond clauses => exact absurd rfl (plain clauses)
  | sample choices draws unit =>
    simp only [parts, List.mem_cons, List.not_mem_nil, or_false] at member
    simp only [surveyed, skipped]
    rcases member with rfl | rfl | rfl
    · split <;> simp
    · simp
    · simp
  | randomRange | bernoulliFilter | weightedChoice =>
    simp only [parts, List.mem_cons, List.not_mem_nil, or_false] at member
    rcases member with rfl | rfl | rfl <;> simp [surveyed, skipped]
  | bernoulliTrial | uniformChoice =>
    simp only [parts, List.mem_cons, List.not_mem_nil, or_false] at member
    rcases member with rfl | rfl <;> simp [surveyed, skipped]
  | _ => exact .inl member

section Assigned

variable {name : String}

/-- Parts visited in turn come to what one of them comes to. -/
theorem SurveysAmong.of_mem {parts : List Tree} {part : Tree} {before after : Store Description}
    (visited : Visited parts before after) (member : part ∈ parts)
    (surveys : ∀ {before after found}, (preview part).run before = (.ok found, after) →
      Surveys name part before) : SurveysAmong name parts before := by
  -- The induction is over the visits up to that of the part.
  induction visited with
  | nil store => cases member
  | cons ran visited ih =>
    rcases List.mem_cons.mp member with rfl | member
    · exact .first (surveys ran)
    · exact .later ran (ih member)

/-- Clauses gathered in turn come to what one of their guards or bodies comes to. -/
theorem SurveysClauses.of_mem {clauses : List (Tree × Tree)} {part : Tree}
    {branches : List (Table Description)} {before after : Store Description}
    (gathered : Gathered clauses before branches after) (member : part ∈ (Tree.cond clauses).parts)
    (surveys : ∀ {before after found}, (preview part).run before = (.ok found, after) →
      Surveys name part before) : SurveysClauses name clauses before := by
  -- The induction is over the clauses up to that of the guard or body.
  induction gathered with
  | nil store => cases member
  | cons guarded branched gathered ih =>
    rcases List.mem_cons.mp member with rfl | member
    · exact .guard (surveys guarded)
    rcases List.mem_cons.mp member with rfl | member
    · exact .body guarded (surveys branched)
    · exact .later guarded (ih member)

/-- A preview comes to every assigned name that no passed over part assigns. -/
theorem surveys_of_mem_assigned {tree : Tree} {before after : Store Description}
    {found : Description}
    (ran : (preview tree).run before = (.ok found, after)) (assigned : name ∈ tree.assigned)
    (covered : ∀ node ∈ tree.nodes, ∀ part ∈ node.skipped, name ∉ part.assigned) :
    Surveys name tree before := by
  -- The assignment is the script itself or in a part, which is visited or passed over.
  induction tree using Tree.induction_parts generalizing before after found with
  | step tree ih =>
    rcases Tree.mem_assigned.mp assigned with named | ⟨part, member, inPart⟩
    · cases tree <;> cases named
      exact .here _ _
    · -- Wherever the part is visited, its survey comes to the name.
      have surveys {before after found} (ran : (preview part).run before = (.ok found, after)) :
          Surveys name part before :=
        ih part member ran inPart fun node inside =>
          covered node (Tree.mem_nodes_of_part member inside)
      cases Previewed.of_run ran with
      | assign valued merges =>
        cases List.mem_singleton.mp member
        exact .inside (.first (surveys valued))
      | cond gathered joined => exact .cond (.of_mem gathered member surveys)
      | parts named plain visited =>
        rcases Tree.mem_surveyed_or_skipped before member plain with among | left
        · exact .inside (.of_mem visited among surveys)
        · exact absurd inPart (covered tree tree.mem_nodes_self part left)

end Assigned

/-- The preview of a read script lists the variables that its survey left. -/
theorem inspect_ok {script : Value} {tree : Tree} {inputs : Inputs Description}
    {entries : Table Description} (parsed : Tree.parse script = .ok tree)
    (inspected : inspect script (.ok inputs) = .ok entries) :
    ∃ found after, (preview tree).run inputs.symbols = (.ok found, after) ∧
      entries = after.toTable := by
  -- Reading and previewing both had a result, or there would be no entries.
  simp only [inspect, parsed, Bind.bind, Except.bind, inspectTree] at inspected
  cases ran : (preview tree).run inputs.symbols with
  | mk outcome after =>
    rw [ran] at inspected
    cases outcome with
    | ok found =>
      cases inspected
      exact ⟨found, after, rfl, rfl⟩
    | error fault => cases inspected

/-- The layer of described inputs is a fresh one. -/
theorem Inputs.layer_symbols (inputs : Inputs Description) : inputs.symbols.layer = [] := by
  cases inputs <;> rfl

/-- A preview lists the names of the inputs and those that it comes to. -/
theorem has_inspect {script : Value} {tree : Tree} {inputs : Inputs Description}
    {entries : Table Description} (parsed : Tree.parse script = .ok tree)
    (inspected : inspect script (.ok inputs) = .ok entries) {name : String} :
    Table.has name entries = true ↔
      Table.has name inputs.symbols.toTable = true ∨ Surveys name tree inputs.symbols := by
  -- The layer starts empty, so what it holds in the end was added by the preview.
  obtain ⟨found, after, ran, rfl⟩ := inspect_ok parsed inspected
  have fresh := inputs.layer_symbols
  have tidy := previewKeeps Store.Tidy.kept tree ran (.of_layer_nil fresh)
  have above := previewKeeps Store.Overlays.kept tree ran
  have started : ¬ Table.has name inputs.symbols.locals = true := by
    simp [Store.locals, fresh, Store.live, Table.has]
  rw [Store.Tidy.has_toTable fresh above tidy, records name tree ran, or_iff_right started]

/--
A name that a run assigns is in the preview exactly if it is an input or the preview comes to it.

The preview passes over units, probabilities, weights and some numbers of draws.
A name that none of these assigns is never missing.
-/
theorem has_inspect_of_assigns {script : Value} {tree : Tree} {inputs : Inputs Description}
    {entries : Table Description} {trial : Trial} {name : String}
    (parsed : Tree.parse script = .ok tree)
    (inspected : inspect script (.ok inputs) = .ok entries)
    (assigns : Moment.Assigns tree trial name) :
    (Table.has name entries = true ↔
      Table.has name inputs.symbols.toTable = true ∨ Surveys name tree inputs.symbols) ∧
      ((∀ node ∈ tree.nodes, ∀ part ∈ node.skipped, name ∉ part.assigned) →
        Table.has name entries = true) := by
  -- An assignment that is made is written somewhere in the script.
  have listed : Table.has name entries = true ↔
      Table.has name inputs.symbols.toTable = true ∨ Surveys name tree inputs.symbols :=
    has_inspect parsed inspected
  refine ⟨listed, fun covered => ?_⟩
  obtain ⟨found, after, ran, -⟩ := inspect_ok parsed inspected
  have assigned := Moment.mem_assigned_of_assigns assigns
  exact listed.mpr (.inr (surveys_of_mem_assigned ran assigned covered))

/-- An assignment in a probability is made, but the preview neither comes to it nor lists its name. -/
theorem has_inspect_of_assigns_probability :
    let probability : Value := .dict [("op", .str "set"), ("var", .str "x"), ("value", .int 1)]
    let script : Value := .dict [("op", .str "bernoulliTrial"), ("p", probability)]
    let tree : Tree := .bernoulliTrial (.assign "x" (.scalar (.num (.int 1)))) .null
    let inputs : Inputs Description := .none
    Tree.parse script = .ok tree ∧ inspect script (.ok inputs) = .ok [] ∧
      Moment.Assigns tree (.start "exp" .default (.ofBase .empty)) "x" ∧
      ¬ Surveys "x" tree inputs.symbols ∧
        ∃ node ∈ tree.nodes, ∃ part ∈ node.skipped, "x" ∈ part.assigned := by
  -- Three moves lead into the probability, where the assignment is made.
  intro probability script tree inputs
  have parsed : Tree.parse script = .ok tree := rfl
  have inspected : inspect script (.ok inputs) = .ok [] := rfl
  let trial := Trial.start "exp" .default (.ofBase .empty)
  let assigning : Activation := ⟨.assign "x" (.scalar (.num (.int 1))), []⟩
  have reached : Moment.Leads (.start tree trial)
      ⟨.handOver (.int 1), [assigning, ⟨tree, []⟩], trial⟩ :=
    .head rfl (.head rfl (.head rfl .refl))
  have assigns : Moment.Assigns tree trial "x" := ⟨_, .int 1, reached, rfl⟩
  have missing := has_inspect_of_assigns parsed inspected assigns
  have absent : ¬ Table.has "x" ([] : Table Description) = true := by decide
  refine ⟨parsed, inspected, assigns, fun surveys => absent (missing.1.mpr (.inr surveys)), ?_⟩
  exact ⟨tree, tree.mem_nodes_self, _, List.mem_cons_self, Tree.mem_assigned.mpr (.inl rfl)⟩

end TrialScript

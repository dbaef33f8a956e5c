import TrialScript.Proofs.Preview.Expressions

/-! Soundness: what a preview lists describes every variable that a run leaves behind. -/

namespace TrialScript

/-- A script of steps and branches around expressions, whose guards assign nothing. -/
inductive Statement : Tree → Prop where
  | expression {tree : Tree} (simple : Expression tree) : Statement tree
  | sequence {steps : List Tree} (each : ∀ step ∈ steps, Statement step) :
    Statement (.sequence steps)
  | cond {clauses : List (Tree × Tree)} (guards : ∀ clause ∈ clauses, Expression clause.1)
      (silent : ∀ clause ∈ clauses, clause.1.assigned = [])
      (bodies : ∀ clause ∈ clauses, Statement clause.2) :
      Statement (.cond clauses)

/-- A script assigns nothing when neither itself nor any of its parts does. -/
theorem Tree.assigned_eq_nil {tree : Tree} (silent : tree.assigned = []) :
    tree.ownName? = none ∧ ∀ part ∈ tree.parts, part.assigned = [] := by
  -- A name that the script itself or a part assigned would be an assigned name.
  have absent : ∀ name, name ∉ tree.assigned := by simp [silent]
  constructor
  · exact Option.eq_none_iff_forall_ne_some.mpr fun name named =>
      absent name (mem_assigned.mpr (.inl named))
  · intro part member
    exact List.eq_nil_iff_forall_not_mem.mpr fun name inside =>
      absent name (mem_assigned.mpr (.inr ⟨part, member, inside⟩))

/-- Bodies that change nothing leave nothing on their layers. -/
theorem Gathered.branches_empty {clauses : List (Tree × Tree)} {branches : List (Table Description)}
    {before after : Store Description} (gathered : Gathered clauses before branches after)
    (still : ∀ clause ∈ clauses, clause.2.PreviewKeeps fun before after => after = before) :
    ∀ branch ∈ branches, branch = [] := by
  -- Each body ends on the empty layer that it started with.
  induction gathered with
  | nil => simp
  | cons guarded branched gathered ih =>
    obtain ⟨here, others⟩ := List.forall_mem_cons.mp still
    refine List.forall_mem_cons.mpr ⟨?_, ih others⟩
    rw [here branched]
    rfl

/-- Previewing a script that assigns nothing changes no description. -/
theorem preview_silent {tree : Tree} (silent : tree.assigned = []) :
    tree.PreviewKeeps fun before after => after = before := by
  -- The induction is over the script, along the way in which its preview went.
  have chains : Store.Chains fun before after : Store Description => after = before :=
    ⟨fun _ => rfl, fun earlier later => later.trans earlier⟩
  induction tree using Tree.induction_parts with
  | step tree ih =>
    intro before after found ran
    obtain ⟨unnamed, quiet⟩ := Tree.assigned_eq_nil silent
    cases Previewed.of_run ran with
    | assign => cases unnamed
    | @cond clauses _ middle _ branches gathered joined =>
      have same : middle = before := gathered.keeps chains fun clause member =>
        ih _ (Tree.guard_mem_parts member) (quiet _ (Tree.guard_mem_parts member))
      -- No branch has assigned anything, so there is nothing to join.
      have empty := gathered.branches_empty fun clause member =>
        ih _ (Tree.body_mem_parts member) (quiet _ (Tree.body_mem_parts member))
      have unnamed : (branches.foldl collectBranch []).names = [] := by
        refine List.eq_nil_iff_forall_not_mem.mpr fun name collected => ?_
        obtain ⟨branch, member, named⟩ := mem_names_collected.mp collected
        rw [empty branch member] at named
        cases named
      rw [List.map_eq_nil_iff.mp unnamed] at joined
      cases joined
      exact same
    | parts named plain visited =>
      exact visited.keeps chains fun part member =>
        ih part (Tree.mem_parts_of_mem_surveyed member)
          (quiet part (Tree.mem_parts_of_mem_surveyed member))

/-- Descriptions of all branches can be joined. -/
theorem assignJoined_ok {collected : Table (List Description)}
    (proper : ∀ entry ∈ collected, ∀ description ∈ entry.2, description.Proper)
    (before : Store Description) :
    ∃ after, (assignJoined collected).run before = (.ok (), after) := by
  -- The induction is on the collected names, whose proper descriptions always have a join.
  induction collected generalizing before with
  | nil => exact ⟨before, rfl⟩
  | cons entry rest ih =>
    obtain ⟨name, descriptions⟩ := entry
    obtain ⟨here, others⟩ := List.forall_mem_cons.mp proper
    obtain ⟨joined, made, -⟩ := Description.Proper.hereditary.join here
    obtain ⟨after, ran⟩ := ih others (before.assign name joined)
    refine ⟨after, ?_⟩
    rw [assignJoined, Stateful.run_bind, Stateful.run_lift, made]
    exact ran

/-- The previews of some branches, and which of them has what an evaluation leaves, if one was taken. -/
structure Branched (clauses : List (Tree × Tree)) (before : Store Description) (trial : Trial)
    (branches : List (Table Description)) : Prop where
  ran : (previewClauses clauses).run before = (.ok branches, before)
  proper : ∀ branch ∈ branches, ∀ entry ∈ branch, entry.2.Proper
  left : ((evaluateClauses clauses).run trial).2.variables = trial.variables ∨
    ∃ inner, inner.locals ∈ branches ∧ before.push.Overlays inner ∧
      inner.Fits ((evaluateClauses clauses).run trial).2.variables

/-- Clauses whose guards assign nothing leave the variables alone, or as the preview of one body has them. -/
theorem branched {clauses : List (Tree × Tree)} {before : Store Description} {trial : Trial}
    (guards : ∀ clause ∈ clauses, Expression clause.1)
    (silent : ∀ clause ∈ clauses, clause.1.assigned = [])
    (bodies : ∀ clause ∈ clauses, Tracks (preview clause.2) (evaluate clause.2) fun _ _ => True)
    (fit : before.Fits trial.variables) : ∃ branches, Branched clauses before trial branches := by
  -- The induction is on the clauses, from any trial with the same variables.
  induction clauses generalizing trial with
  | nil => exact ⟨[], rfl, by simp, .inl rfl⟩
  | cons clause rest ih =>
    obtain ⟨guard, body⟩ := clause
    obtain ⟨guarded, guards⟩ := List.forall_mem_cons.mp guards
    obtain ⟨quiet, silent⟩ := List.forall_mem_cons.mp silent
    obtain ⟨bodied, bodies⟩ := List.forall_mem_cons.mp bodies
    -- The guard changes neither a description nor a variable, so the body starts from the same fit.
    obtain ⟨decided, middle, ranGuard, -⟩ := guarded.tracks before trial fit
    cases preview_silent quiet ranGuard
    have kept : ((evaluate guard).run trial).2.variables = trial.variables :=
      variables_evaluate quiet trial
    cases result : (evaluate guard).run trial with
    | mk outcome later =>
      rw [result] at kept
      have fitLater : before.Fits later.variables := kept ▸ fit
      obtain ⟨branches, others⟩ := ih guards silent bodies fitLater
      obtain ⟨given, inner, ranBody, ahead⟩ := bodied before.push later fitLater.push
      have above := previewKeeps Store.Overlays.kept body ranBody
      have tidy : inner.Tidy := previewKeeps Store.Tidy.kept body ranBody (.of_layer_nil rfl)
      refine ⟨inner.locals :: branches, ?_, ?_, ?_⟩
      · rw [previewClauses, Stateful.run_bind, ranGuard]
        simp only [Stateful.run_bind, run_inBranch, ranBody, others.ran]
        rfl
      · refine List.forall_mem_cons.mpr ⟨fun entry member => ?_, others.proper⟩
        exact ahead.fit.proper _ _ (tidy.lookup_of_mem_locals member)
      · rw [evaluateClauses, Stateful.run_bind, result]
        cases outcome with
        | error fault => exact .inl kept
        | ok value =>
          simp only [Stateful.run_bind, Stateful.run_lift]
          cases value.truthy with
          | error fault => exact .inl kept
          | ok holds =>
            cases holds with
            | true => exact .inr ⟨inner, List.mem_cons_self, above, ahead.fit⟩
            | false =>
              rcases others.left with same | ⟨inner, member, above, fit⟩
              · exact .inl (same.trans kept)
              · exact .inr ⟨inner, List.mem_cons_of_mem _ member, above, fit⟩

namespace Branched

variable {clauses : List (Tree × Tree)} {before after : Store Description} {trial : Trial}
  {branches : List (Table Description)}

/-- All entries of a name in the branches are proper. -/
theorem proper_entries (branched : Branched clauses before trial branches) (name : String) :
    ∀ entry ∈ branches.flatMap (Table.entriesOf name), entry.Proper := by
  intro entry member
  obtain ⟨branch, inside, ofName⟩ := List.mem_flatMap.mp member
  exact branched.proper branch inside _ (Table.mem_entriesOf.mp ofName)

/-- The branches can be joined. -/
theorem joins (branched : Branched clauses before trial branches) :
    ∃ after, (assignJoined (branches.foldl collectBranch [])).run before = (.ok (), after) := by
  -- What is collected for a name are its entries in the branches.
  refine assignJoined_ok (fun entry member => ?_) before
  obtain ⟨name, descriptions⟩ := entry
  have collected := Table.lookup?_of_mem (nodup_names_collected branches) member
  rw [lookup?_collected] at collected
  split at collected
  · cases collected
  · cases collected
    exact branched.proper_entries name

/-- Joined branches have proper descriptions. -/
theorem proper_joined (branched : Branched clauses before trial branches)
    (fit : before.Fits trial.variables)
    (joined : (assignJoined (branches.foldl collectBranch [])).run before = (.ok (), after)) :
    ∀ name description, after.lookup name = some description → description.Proper := by
  -- A name keeps its description or has the join of proper ones.
  intro name description found
  rcases lookup_joined joined name with ⟨-, same⟩ | ⟨-, wide, made, assigned⟩
  · exact fit.proper name description (same ▸ found)
  · cases assigned.symm.trans found
    obtain ⟨joined, made', proper⟩ :=
      Description.Proper.hereditary.join (branched.proper_entries name)
    cases made.symm.trans made'
    exact proper

/-- Joined branches describe what any one of them describes. -/
theorem describes_joined (branched : Branched clauses before trial branches)
    {inner : Store Description}
    (joined : (assignJoined (branches.foldl collectBranch [])).run before = (.ok (), after))
    (grows : before.Grows after) (member : inner.locals ∈ branches)
    (above : before.push.Overlays inner)
    {name : String} {narrow : Description} {value : Value} (known : inner.lookup name = some narrow)
    (described : narrow.describes value = true) :
    ∃ wide, after.lookup name = some wide ∧ wide.describes value = true := by
  rcases above.lookup_of_push known with inLayer | below
  · -- The branch assigned the name, and the join has what each branch assigned.
    have entry : narrow ∈ branches.flatMap (Table.entriesOf name) :=
      List.mem_flatMap.mpr ⟨_, member, Table.mem_entriesOf.mpr inLayer⟩
    rcases lookup_joined joined name with ⟨none, -⟩ | ⟨-, wide, made, assigned⟩
    · rw [none] at entry
      cases entry
    · have ordered := fun other inside => (branched.proper_entries name other inside).ordered
      exact ⟨wide, assigned,
        (Description.join_covers made ordered narrow entry).describes described⟩
  · -- The branch left the name alone, and alternatives are only added.
    exact grows.describes below described

end Branched

namespace Tracks

/-- Previewing all branches and joining them tracks the one body that runs, if one does. -/
theorem cond {clauses : List (Tree × Tree)} (guards : ∀ clause ∈ clauses, Expression clause.1)
    (silent : ∀ clause ∈ clauses, clause.1.assigned = [])
    (bodies : ∀ clause ∈ clauses, Tracks (preview clause.2) (evaluate clause.2) fun _ _ => True) :
    Tracks (preview (.cond clauses)) (evaluateClauses clauses) fun _ _ => True := by
  -- The joined descriptions have to fit what was there before and what the taken body left.
  intro before trial fit
  obtain ⟨branches, branched⟩ := branched guards silent bodies fit
  obtain ⟨after, joined⟩ := branched.joins
  have ran : (preview (.cond clauses)).run before = (.ok .unknown, after) := by
    rw [preview, Stateful.run_bind, branched.ran]
    simp only [Stateful.run_bind, joined]
    rfl
  have grows : before.Grows after := previewGrows _ ran
  have proper := branched.proper_joined fit joined
  refine ⟨.unknown, after, ran, grows, ?_, ⟨.null, trivial⟩, fun _ _ => trivial⟩
  rcases branched.left with same | ⟨inner, member, above, fitInner⟩
  · exact same ▸ fit.grow grows proper
  · refine ⟨proper, fun name value found => ?_⟩
    obtain ⟨narrow, known, described⟩ := fitInner.describes name value found
    exact branched.describes_joined joined grows member above known described

/-- Describing all steps tracks their evaluation up to the one that returns. -/
theorem steps {steps : List Tree}
    (each : ∀ step ∈ steps, Tracks (preview step) (evaluate step) fun _ _ => True)
    (description : Description) (value : Value) :
    Tracks (previewSteps description steps) (evaluateSteps value steps) fun _ _ => True := by
  -- The induction is on the steps: after a return the run is done, while the survey goes on.
  induction steps generalizing description value with
  | nil => exact .pure trivial
  | cons step rest ih =>
    obtain ⟨here, others⟩ := List.forall_mem_cons.mp each
    rw [previewSteps, evaluateSteps]
    exact whileRunning (here.bind fun first found _ => ih others first found) fun _ _ _ => trivial

end Tracks

/-- The preview of a statement stays ahead of its evaluation. -/
theorem Statement.tracks {tree : Tree} (statement : Statement tree) :
    Tracks (preview tree) (evaluate tree) fun _ _ => True := by
  -- The induction follows the statement.
  induction statement with
  | expression simple => exact simple.tracks.mono fun _ _ _ => trivial
  | sequence _ ih =>
    rw [preview, evaluate]
    exact Tracks.whileRunning (.steps ih .unknown .null) fun _ _ _ => trivial
  | cond guards silent _ ih =>
    rw [evaluate]
    exact Tracks.whileRunning (.cond guards silent ih) fun _ _ _ => trivial

/-- The variables of an execution are those of its inputs, or those that the evaluation of its script left. -/
theorem variables_execute {script : Value} {tree : Tree} (parsed : Tree.parse script = .ok tree)
    (title : String) (inputs : Inputs Value) (settings : Settings) :
    (execute title script inputs settings).2 = inputs.variables ∨ ∃ policy,
      (execute title script inputs settings).2 =
        ((evaluate tree).run (.start title policy inputs.variables)).2.variables := by
  -- A script that is read runs unless its policy is refused.
  simp only [execute, parsed]
  cases settings.policy with
  | error fault => exact .inl rfl
  | ok policy =>
    refine .inr ⟨policy, ?_⟩
    dsimp only
    cases (evaluate tree).run (.start title policy inputs.variables) with
    | mk outcome trial => cases outcome <;> rfl

/--
A statement whose inputs are described has a preview, which describes every variable that a run leaves.

This holds of every name and policy, and of runs that stop with a fault as well.
-/
theorem inspect_describes_execute {script : Value} {tree : Tree} {described : Table Description}
    {values : Table Value} (parsed : Tree.parse script = .ok tree) (statement : Statement tree)
    (proper : ∀ name description, described.lookup? name = some description → description.Proper)
    (describes : ∀ name value, values.lookup? name = some value →
      ∃ description, described.lookup? name = some description ∧
        description.describes value = true) :
    ∃ entries, inspect script (.ok (.mapping described)) = .ok entries ∧
      ∀ title settings name value,
        (execute title script (.mapping values) settings).2.lookup name = some value →
        ∃ description, entries.lookup? name = some description ∧
          description.describes value = true := by
  -- The preview does not depend on the run, so one result serves all of them.
  let before : Store Description := .ofBase (.mapping described)
  have fit : before.Fits (.ofBase (.mapping values)) := ⟨proper, describes⟩
  obtain ⟨found, after, ran, ahead⟩ :=
    statement.tracks before (.start "" .default (.ofBase (.mapping values))) fit
  have inspected : inspect script (.ok (.mapping described)) = .ok after.toTable := by
    have same : (preview tree).run (Inputs.mapping described).symbols = (.ok found, after) := ran
    simp only [inspect, parsed, Bind.bind, Except.bind, inspectTree, same]
  refine ⟨after.toTable, inspected, fun title settings name value left => ?_⟩
  have above := previewKeeps Store.Overlays.kept tree ran
  have tidy := previewKeeps Store.Tidy.kept tree ran (.of_layer_nil rfl)
  have listed : after.toTable.lookup? name = after.lookup name := tidy.lookup?_toTable rfl above rfl
  rw [listed]
  rcases variables_execute parsed title (.mapping values) settings with same | ⟨policy, same⟩
  · rw [same] at left
    exact (fit.grow ahead.grows ahead.fit.proper).describes name value left
  · obtain ⟨found', after', ran', ahead'⟩ :=
      statement.tracks before (.start title policy (.ofBase (.mapping values))) fit
    cases ran.symm.trans ran'
    rw [same] at left
    exact ahead'.fit.describes name value left

/-- Behind a guard, an input becomes one of itself and a constant: its description covers every run. -/
theorem inspect_describes_execute_draw :
    let size : Value := .dict [("op", .str "get"), ("var", .str "size")]
    let vip : Value := .dict [("op", .str "get"), ("var", .str "vip")]
    let choices : Value := .dict [("op", .str "array"), ("values", .list [size, .int 7])]
    let draw : Value := .dict [("op", .str "uniformChoice"), ("choices", choices), ("unit", vip)]
    let grow : Value := .dict [("op", .str "set"), ("var", .str "size"), ("value", draw)]
    let script : Value :=
      .dict [("op", .str "cond"), ("cond", .list [.dict [("if", vip), ("then", grow)]])]
    let described : Table Description :=
      [("vip", .boolean), ("size", .range .integer (.int 1) (.int 3))]
    let values : Table Value := [("vip", .bool true), ("size", .int 2)]
    ∃ entries, inspect script (.ok (.mapping described)) = .ok entries ∧
      ∀ title settings name value,
        (execute title script (.mapping values) settings).2.lookup name = some value →
        ∃ description, entries.lookup? name = some description ∧
          description.describes value = true := by
  -- The parsed script is a statement, and each described input describes its value.
  intro size vip choices draw grow script described values
  let drawn : Tree :=
    .uniformChoice (.array [.lookup "size", .scalar (.num (.int 7))]) (.lookup "vip")
  let tree : Tree := .cond [(.lookup "vip", .assign "size" drawn)]
  have parsed : Tree.parse script = .ok tree := by
    cbv
  -- Guard and unit assign nothing, as an expression of a statement has to.
  have quiet : (Tree.lookup "vip").assigned = [] := by
    simp [Tree.assigned, Tree.nodes_eq, Tree.parts, Tree.ownName?]
  have seven : Expression (.scalar (.num (.int 7))) := by
    refine .scalar (.scalar ?_)
    rintro number ⟨⟩
    rfl
  have drawing : Expression drawn := by
    refine .uniformChoice (fun item member => ?_) quiet
    simp only [List.mem_cons, List.not_mem_nil, or_false] at member
    rcases member with rfl | rfl
    · exact .lookup "size"
    · exact seven
  have statement : Statement tree := by
    refine .cond ?_ ?_ ?_ <;> intro clause member <;> cases List.mem_singleton.mp member
    · exact .lookup "vip"
    · exact quiet
    · exact .expression (.assign "size" drawing)
  -- The descriptions of the inputs are proper, and each one describes the value of its input.
  have proper : ∀ name description, described.lookup? name = some description →
    description.Proper := by
    intro name description found
    have listed := Table.mem_of_lookup? found
    simp only [described, List.mem_cons, List.not_mem_nil, or_false, Prod.mk.injEq] at listed
    rcases listed with ⟨-, rfl⟩ | ⟨-, rfl⟩
    · exact (Description.fits_boolean true).1
    · exact .range ⟨rfl, rfl⟩
  have describes : ∀ name value, values.lookup? name = some value →
      ∃ description, described.lookup? name = some description ∧
        description.describes value = true := by
    intro name value found
    have listed := Table.mem_of_lookup? found
    simp only [values, List.mem_cons, List.not_mem_nil, or_false, Prod.mk.injEq] at listed
    rcases listed with ⟨rfl, rfl⟩ | ⟨rfl, rfl⟩
    · exact ⟨_, rfl, by decide +kernel⟩
    · exact ⟨_, rfl, by decide +kernel⟩
  exact inspect_describes_execute parsed statement proper describes

end TrialScript

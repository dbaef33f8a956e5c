import TrialScript.Proofs.Store
import TrialScript.Tree.Basic

/-! The traversal of written scripts, one level at a time, and what it meets first. -/

namespace TrialScript

/-- A problem of a part, seen from further outside. -/
def Problem.within (path : List Segment) (problem : Problem) : Problem :=
  { problem with path := path ++ problem.path }

/-- What the traversal of a part finds without going any deeper: a problem, or a part to go to. -/
inductive Finding where
  | wrong (problem : Problem)
  | visit (path : List Segment) (part : Value)

namespace Finding

/-- The problems that a finding comes to. -/
def problems : Finding → List Problem
  | .wrong problem => [problem]
  | .visit path part => (TrialScript.problems part).map (Problem.within path)

/-- A finding in a part, seen from the part around it. -/
def under (segment : Segment) : Finding → Finding
  | .wrong problem => .wrong (problem.under segment)
  | .visit path part => .visit (segment :: path) part

/-- The part to go to, with its place. -/
def visit? : Finding → Option (List Segment × Value)
  | .wrong _ => none
  | .visit path part => some (path, part)

/-- A step in front of a finding is one in front of its problems. -/
theorem problems_under (segment : Segment) (finding : Finding) :
    (finding.under segment).problems = finding.problems.map (Problem.under segment) := by
  -- One more step is put in front of every place.
  cases finding with
  | wrong problem => rfl
  | visit path part => simp [under, problems, Problem.under, Problem.within]

/-- The problems of findings that are all seen from one step further outside. -/
theorem flatMap_problems_under (segment : Segment) (findings : List Finding) :
    (findings.map (under segment)).flatMap problems =
      (findings.flatMap problems).map (Problem.under segment) := by
  simp only [List.flatMap_map, problems_under, List.map_flatMap]

end Finding

/-- The findings in items, numbered from a given one on. -/
def itemFindings (index : Nat) : List Value → List Finding
  | [] => []
  | item :: rest => .visit [.item index] item :: itemFindings (index + 1) rest

/-- The finding in one part of a clause. -/
def partFinding (key : String) (parts : Table Value) : Finding :=
  match parts.lookup? key with
  | none => .wrong (.here (.noClauseField key))
  | some part => .visit [.field key] part

/-- The findings in clauses, numbered from a given one on. -/
def clauseFindings (index : Nat) : List Value → List Finding
  | [] => []
  | .dict parts :: rest =>
    [partFinding "if" parts, partFinding "then" parts].map (Finding.under (.item index)) ++
      clauseFindings (index + 1) rest
  | other :: rest =>
    .wrong ⟨[.item index], .notClause other.kindName⟩ :: clauseFindings (index + 1) rest

/-- The findings in the value of a field. -/
def heldFindings (op : Operation) (field : Field) (value : Value) : List Finding :=
  match field.shape with
  | .anything => []
  | .name => (nameProblems op value).map .wrong
  | .tree | .optionalTree => [.visit [.field field.key] value]
  | .trees | .presentTrees =>
    match value with
    | .list items => (itemFindings 0 items).map (Finding.under (.field field.key))
    | other => [.wrong (.here (.notList op.name field.key other.kindName))]
  | .clauses =>
    match value with
    | .list clauses => (clauseFindings 0 clauses).map (Finding.under (.field field.key))
    | other => [.wrong (.here (.notClauses other.kindName))]

/-- The findings in one field of a node. -/
def fieldFindings (op : Operation) (field : Field) (fields : Table Value) : List Finding :=
  match fields.lookup? field.key with
  | none => (field.absent op).map .wrong
  | some value => heldFindings op field value

/-- The findings in a written script, in the order of the traversal. -/
def findings : Value → List Finding
  | .scalar _ => []
  | .list items => itemFindings 0 items
  | .dict fields =>
    match operationOf fields with
    | .error defect => [.wrong (.here defect)]
    | .ok op => (op.fields fields).flatMap fun field => fieldFindings op field fields
  | .date value => [.wrong (.here (.notNode (Value.date value).kindName))]
  | .datetime value => [.wrong (.here (.notNode (Value.datetime value).kindName))]

/-- The problems of items are those that their findings come to. -/
theorem itemProblems_eq (index : Nat) (items : List Value) :
    itemProblems index items = (itemFindings index items).flatMap Finding.problems := by
  -- The induction is on the items, from any number on.
  induction items generalizing index with
  | nil => rfl
  | cons item rest ih =>
    rw [itemProblems, itemFindings, List.flatMap_cons, ih]
    rfl

/-- The problems of a part of a clause are those that its finding comes to. -/
theorem partProblems_eq (key : String) (parts : Table Value) :
    partProblems key parts = (partFinding key parts).problems := by
  have searched := Table.eq_elim_lookup? rfl
    (fun name part rest => partProblems.eq_def key ((name, part) :: rest)) parts
  rw [searched, partFinding]
  cases parts.lookup? key <;> rfl

/-- The problems of clauses are those that their findings come to. -/
theorem clauseProblems_eq (index : Nat) (clauses : List Value) :
    clauseProblems index clauses = (clauseFindings index clauses).flatMap Finding.problems := by
  -- The induction is on the clauses, from any number on.
  induction clauses generalizing index with
  | nil => rfl
  | cons clause rest ih =>
    cases clause with
    | dict parts =>
      rw [clauseProblems, clauseFindings, List.flatMap_append, Finding.flatMap_problems_under, ih,
        partProblems_eq, partProblems_eq]
      simp
    | _ =>
      rw [clauseProblems, clauseFindings, List.flatMap_cons, ih]
      · rfl
      all_goals simp

/-- Findings that are all problems come to these problems. -/
theorem flatMap_wrong (found : List Problem) :
    (found.map Finding.wrong).flatMap Finding.problems = found := by
  -- The induction is on the problems, each of which comes to itself.
  induction found with
  | nil => rfl
  | cons problem rest ih => simpa [Finding.problems] using ih

/-- The problems of a field are those that its findings come to. -/
theorem fieldProblems_eq (op : Operation) (field : Field) (fields : Table Value) :
    fieldProblems op field fields = (fieldFindings op field fields).flatMap Finding.problems := by
  have searched := Table.eq_elim_lookup? rfl
    (fun name value rest => fieldProblems.eq_def op field ((name, value) :: rest)) fields
  rw [searched, fieldFindings]
  cases fields.lookup? field.key with
  | none => exact (flatMap_wrong _).symm
  | some value =>
    -- The value is looked at in the same way by its shape on both sides.
    dsimp only [Option.elim]
    unfold heldFindings
    cases field.shape with
    | anything => rfl
    | name => exact (flatMap_wrong _).symm
    | tree | optionalTree => simp [Finding.problems, Problem.under, Problem.within]
    | trees | presentTrees =>
      cases value with
      | list items => simp only [itemProblems_eq, Finding.flatMap_problems_under]
      | _ => rfl
    | clauses =>
      cases value with
      | list clauses => simp only [clauseProblems_eq, Finding.flatMap_problems_under]
      | _ => rfl

/-- The problems of a written script are those that its findings come to. -/
theorem problems_eq (script : Value) :
    problems script = (findings script).flatMap Finding.problems := by
  -- One case for each kind of value; only a mapping with an operation has fields to look at.
  cases script with
  | scalar value => rfl
  | list items => exact itemProblems_eq 0 items
  | dict fields =>
    simp only [problems, findings]
    cases operationOf fields with
    | error defect => rfl
    | ok op => simp only [fieldProblems_eq, List.flatMap_assoc]
  | date value | datetime value => rfl

/-- A part to go to that is seen from outside has one more step in front of its place. -/
theorem Finding.visit_mem_under {segment : Segment} {found : List Finding} {path : List Segment}
    {part : Value} (member : .visit path part ∈ found.map (Finding.under segment)) :
    ∃ inner, path = segment :: inner ∧ .visit inner part ∈ found := by
  -- A step in front of the place keeps the part.
  obtain ⟨finding, inside, same⟩ := List.mem_map.mp member
  cases finding with
  | wrong problem => cases same
  | visit inner other =>
    cases same
    exact ⟨inner, rfl, inside⟩

section Smaller

variable {path : List Segment} {part : Value}

/-- The value of a field is smaller than the fields. -/
theorem sizeOf_lt_of_lookup? {key : String} {fields : Table Value}
    (found : fields.lookup? key = some part) : sizeOf part < sizeOf fields := by
  have := List.sizeOf_lt_of_mem (Table.mem_of_lookup? found)
  simp only [Prod.mk.sizeOf_spec] at this
  omega

/-- A visited item is smaller than the list. -/
theorem sizeOf_lt_of_itemFindings {index : Nat} {items : List Value}
    (member : .visit path part ∈ itemFindings index items) : sizeOf part < sizeOf items := by
  -- The induction is on the items, from any number on.
  induction items generalizing index with
  | nil => cases member
  | cons item rest ih =>
    simp only [List.cons.sizeOf_spec]
    rcases List.mem_cons.mp member with here | later
    · cases here
      omega
    · have := ih later
      omega

/-- A visited guard or body is smaller than the clauses. -/
theorem sizeOf_lt_of_clauseFindings {index : Nat} {clauses : List Value}
    (member : .visit path part ∈ clauseFindings index clauses) : sizeOf part < sizeOf clauses := by
  -- The induction is on the clauses, from any number on.
  induction clauses generalizing index with
  | nil => cases member
  | cons clause rest ih =>
    simp only [List.cons.sizeOf_spec]
    cases clause with
    | dict parts =>
      rcases List.mem_append.mp member with here | later
      · -- A guard or a body is a field of the clause.
        obtain ⟨inner, -, inside⟩ := Finding.visit_mem_under here
        have guardOrBody : ∃ key, .visit inner part = partFinding key parts := by
          simp only [List.mem_cons, List.not_mem_nil, or_false] at inside
          rcases inside with guard | body
          · exact ⟨"if", guard⟩
          · exact ⟨"then", body⟩
        obtain ⟨key, named⟩ := guardOrBody
        unfold partFinding at named
        split at named
        · cases named
        · next found =>
          cases named
          have := sizeOf_lt_of_lookup? found
          simp only [Value.dict.sizeOf_spec]
          omega
      · have := ih later
        omega
    | _ =>
      rcases List.mem_cons.mp member with here | later
      · cases here
      · have := ih later
        omega

/-- What is visited in a field is no larger than what the field holds. -/
theorem sizeOf_le_of_heldFindings {op : Operation} {field : Field} {value : Value}
    (member : .visit path part ∈ heldFindings op field value) : sizeOf part ≤ sizeOf value := by
  have noVisit : ∀ found : List Problem, .visit path part ∉ found.map Finding.wrong := by
    simp
  -- The value itself is visited, or its items or clauses are.
  unfold heldFindings at member
  split at member
  · cases member
  · exact absurd member (noVisit _)
  · cases List.mem_singleton.mp member
    exact Nat.le_refl _
  · cases List.mem_singleton.mp member
    exact Nat.le_refl _
  all_goals
    split at member
    · obtain ⟨inner, -, inside⟩ := Finding.visit_mem_under member
      simp only [Value.list.sizeOf_spec]
      first
      | have := sizeOf_lt_of_itemFindings inside
        omega
      | have := sizeOf_lt_of_clauseFindings inside
        omega
    · simp at member

/-- Every part that the traversal goes to is smaller than the script. -/
theorem sizeOf_lt_of_findings {script : Value} (member : .visit path part ∈ findings script) :
    sizeOf part < sizeOf script := by
  -- Items are smaller than their list, and what a field holds is smaller than the fields.
  cases script with
  | scalar value => cases member
  | list items =>
    have := sizeOf_lt_of_itemFindings member
    simp only [Value.list.sizeOf_spec]
    omega
  | dict fields =>
    simp only [findings] at member
    split at member
    · simp at member
    · obtain ⟨field, -, inside⟩ := List.mem_flatMap.mp member
      unfold fieldFindings at inside
      split at inside
      · simp at inside
      · next found =>
        have := sizeOf_lt_of_lookup? found
        have := sizeOf_le_of_heldFindings inside
        simp only [Value.dict.sizeOf_spec]
        omega
  | date value | datetime value => simp [findings] at member

end Smaller

/-- What holds of a written script once it holds of all parts that the traversal goes to from it. -/
theorem induction_findings {motive : Value → Prop}
    (step : ∀ script, (∀ path part, .visit path part ∈ findings script → motive part) →
      motive script) (script : Value) : motive script :=
  step script fun _ part _ => induction_findings step part
termination_by sizeOf script
decreasing_by exact sizeOf_lt_of_findings ‹_›

/-- The parts that the traversal goes to from a written script, with their places. -/
def visits (script : Value) : List (List Segment × Value) :=
  (findings script).filterMap Finding.visit?

/-- The visits are the findings that go to a part. -/
theorem mem_visits {script part : Value} {path : List Segment} :
    (path, part) ∈ visits script ↔ .visit path part ∈ findings script := by
  -- Problems are dropped, and a part to go to is kept with its place.
  rw [visits, List.mem_filterMap]
  constructor
  · rintro ⟨finding, member, goesTo⟩
    cases finding with
    | wrong problem => cases goesTo
    | visit place other =>
      cases goesTo
      exact member
  · exact fun member => ⟨_, member, rfl⟩

/-- Everything that the traversal meets in a written script, with its place, outer parts first. -/
def visited (script : Value) : List (List Segment × Value) :=
  ([], script) :: (visits script).attach.flatMap fun ⟨(path, part), _⟩ =>
    (visited part).map fun (inner, met) => (path ++ inner, met)
termination_by sizeOf script
decreasing_by exact sizeOf_lt_of_findings (mem_visits.mp ‹_›)

/-- The traversal meets the script itself, and then what it meets in each part in turn. -/
theorem visited_eq (script : Value) :
    visited script = ([], script) :: (visits script).flatMap fun (path, part) =>
      (visited part).map fun (inner, met) => (path ++ inner, met) := by
  -- Attaching the proof of membership to each part changes none of the parts.
  rw [visited, List.flatMap_subtype (fun _ _ => rfl), List.unattach_attach]

/-- The script itself is met first. -/
theorem mem_visited_self (script : Value) : ([], script) ∈ visited script := by
  rw [visited_eq]
  exact List.mem_cons_self

/-- What is met in a part is met in the script, further inside. -/
theorem mem_visited {script part met : Value} {path inner : List Segment}
    (visit : .visit path part ∈ findings script) (inside : (inner, met) ∈ visited part) :
    (path ++ inner, met) ∈ visited script := by
  rw [visited_eq]
  exact List.mem_cons_of_mem _ (List.mem_flatMap.mpr
    ⟨(path, part), mem_visits.mpr visit, List.mem_map_of_mem inside⟩)

/-- What a script has in itself, and passes on from its parts, it has in whatever the traversal meets. -/
theorem induction_visited {motive : Value → List Segment → Value → Prop}
    (here : ∀ script, motive script [] script)
    (deeper : ∀ script outer part inner met, .visit outer part ∈ findings script →
      motive part inner met → motive script (outer ++ inner) met)
    {script met : Value} {path : List Segment} (inside : (path, met) ∈ visited script) :
    motive script path met := by
  -- The induction is on the script: what it meets is the script, or is met in one of its parts.
  induction script using induction_findings generalizing path with
  | step script ih =>
    rw [visited_eq] at inside
    rcases List.mem_cons.mp inside with itself | within
    · cases itself
      exact here _
    · obtain ⟨⟨outer, part⟩, visit, member⟩ := List.mem_flatMap.mp within
      obtain ⟨⟨inner, hole⟩, metInside, same⟩ := List.mem_map.mp member
      cases same
      have goesTo := mem_visits.mp visit
      exact deeper script outer part inner met goesTo (ih outer part goesTo metInside)

/-- The tag of a node, if no operation is known by it. -/
def unknownTag? : Value → Option Value
  | .dict fields =>
    match operationOf fields with
    | .error (.unknownOperation operation) => some operation
    | _ => none
  | _ => none

/-- The first unknown tag that the traversal meets, with its place. -/
def firstUnknown? (script : Value) : Option (Value × List Segment) :=
  (visited script).findSome? fun (path, met) => (unknownTag? met).map fun tag => (tag, path)

/-- A search through what is made of the items of a list goes through the items in turn. -/
theorem findSome?_flatMap {α β γ : Type} (make : α → List β) (found : β → Option γ)
    (items : List α) :
    (items.flatMap make).findSome? found =
      items.findSome? fun item => (make item).findSome? found := by
  -- The induction is on the items, of which the first with a result ends the search.
  induction items with
  | nil => rfl
  | cons item rest ih =>
    rw [List.flatMap_cons, List.findSome?_append, List.findSome?_cons, ih]
    cases (make item).findSome? found <;> rfl

/-- The first unknown tag is that of the script itself, or else the first one in a part. -/
theorem firstUnknown?_eq (script : Value) :
    firstUnknown? script = ((unknownTag? script).map fun tag => (tag, [])).or
      ((visits script).findSome? fun (path, part) =>
        (firstUnknown? part).map fun (tag, inner) => (tag, path ++ inner)) := by
  -- What is met in a part has the place of the part in front of its own.
  have onward : ∀ (path : List Segment) (part : Value),
      ((visited part).map fun (inner, met) => (path ++ inner, met)).findSome?
          (fun (place, met) => (unknownTag? met).map fun tag => (tag, place)) =
        (firstUnknown? part).map fun (tag, inner) => (tag, path ++ inner) := by
    intro path part
    rw [firstUnknown?, List.map_findSome?, List.findSome?_map]
    congr 1
    funext ⟨inner, met⟩
    cases h : unknownTag? met <;> simp [h]
  rw [firstUnknown?, visited_eq, List.findSome?_cons, findSome?_flatMap]
  simp only [onward]
  cases unknownTag? script <;> rfl

/-- A problem of a part is reported with the place of the part in front of its own. -/
theorem Problem.unknown?_within (path : List Segment) (problem : Problem) :
    (problem.within path).unknown? =
      problem.unknown?.map fun (tag, inner) => (tag, path ++ inner) := by
  unfold unknown? within
  cases problem.defect <;> rfl

/-- None of some findings is that the tag of a node is unknown. -/
def Untagged (found : List Finding) : Prop :=
  ∀ problem, .wrong problem ∈ found → ∀ tag, problem.defect ≠ .unknownOperation tag

namespace Untagged

/-- Findings without a wrong tag stay so together. -/
theorem append {lefts rights : List Finding} (left : Untagged lefts) (right : Untagged rights) :
    Untagged (lefts ++ rights) := by
  intro problem member
  rcases List.mem_append.mp member with here | there
  · exact left problem here
  · exact right problem there

/-- Findings without a wrong tag stay so behind a step. -/
theorem under {found : List Finding} (untagged : Untagged found) (segment : Segment) :
    Untagged (found.map (Finding.under segment)) := by
  -- A step in front of the place leaves the defect as it is.
  intro problem member
  obtain ⟨finding, inside, same⟩ := List.mem_map.mp member
  cases finding with
  | wrong inner =>
    cases same
    exact untagged inner inside
  | visit path part => cases same

/-- Problems none of which is an unknown tag. -/
theorem wrong {found : List Problem}
    (untagged : ∀ problem ∈ found, ∀ tag, problem.defect ≠ .unknownOperation tag) :
    Untagged (found.map Finding.wrong) := by
  intro problem member
  obtain ⟨inner, inside, same⟩ := List.mem_map.mp member
  cases same
  exact untagged problem inside

/-- Items have no wrong tag of their own. -/
theorem itemFindings (index : Nat) (items : List Value) : Untagged (itemFindings index items) := by
  -- Items are only visited.
  induction items generalizing index with
  | nil => simp [Untagged, TrialScript.itemFindings]
  | cons item rest ih =>
    intro problem member
    rcases List.mem_cons.mp member with here | later
    · cases here
    · exact ih (index + 1) problem later

/-- Clauses have no wrong tag of their own. -/
theorem clauseFindings (index : Nat) (clauses : List Value) :
    Untagged (clauseFindings index clauses) := by
  -- A clause can lack a guard or a body, or be no clause at all.
  have part : ∀ key parts problem, .wrong problem = partFinding key parts →
      ∀ tag, problem.defect ≠ .unknownOperation tag := by
    intro key parts problem found
    unfold partFinding at found
    split at found <;> cases found
    simp [Problem.here]
  induction clauses generalizing index with
  | nil => simp [Untagged, TrialScript.clauseFindings]
  | cons clause rest ih =>
    cases clause with
    | dict parts =>
      refine append (under ?_ _) (ih (index + 1))
      intro problem member
      simp only [List.mem_cons, List.not_mem_nil, or_false] at member
      rcases member with guard | body
      · exact part _ _ problem guard
      · exact part _ _ problem body
    | _ =>
      intro problem member
      rcases List.mem_cons.mp member with here | later
      · cases here
        simp
      · exact ih (index + 1) problem later

/-- What a field holds has no wrong tag of its own. -/
theorem heldFindings (op : Operation) (field : Field) (value : Value) :
    Untagged (heldFindings op field value) := by
  -- The cases are the shapes of fields; only names, lists and clauses can be wrong themselves.
  unfold TrialScript.heldFindings
  split
  · simp [Untagged]
  · refine wrong fun problem member => ?_
    unfold nameProblems at member
    split at member <;> simp_all [Problem.here]
  · simp [Untagged]
  · simp [Untagged]
  all_goals
    split
    · first
      | exact under (itemFindings _ _) _
      | exact under (clauseFindings _ _) _
    · simp [Untagged, Problem.here]

/-- A finding in a node that has a known tag, or none, is not about this tag. -/
theorem findings {script : Value} (known : unknownTag? script = none) :
    Untagged (findings script) := by
  cases script with
  | scalar value => simp [Untagged, TrialScript.findings]
  | list items => exact itemFindings 0 items
  | dict fields =>
    simp only [TrialScript.findings]
    split
    · next defect wrongTag =>
      -- The tag is what is wrong, but it is not unknown.
      have other : ∀ problem ∈ [Problem.here defect], ∀ tag,
          problem.defect ≠ .unknownOperation tag := by
        intro problem member tag unknown
        cases List.mem_singleton.mp member
        cases unknown
        simp [unknownTag?, wrongTag] at known
      exact wrong other
    · intro problem member
      obtain ⟨field, -, inside⟩ := List.mem_flatMap.mp member
      -- A field is absent, or its findings are those of its shape.
      unfold fieldFindings at inside
      split at inside
      · refine wrong ?_ problem inside
        unfold Field.absent
        split <;> simp [Problem.here]
      · exact heldFindings _ _ _ problem inside
  | date value | datetime value => simp [Untagged, TrialScript.findings, Problem.here]

end Untagged

/-- A node with an unknown tag is found to have one, and nothing else. -/
theorem findings_of_unknownTag? {script tag : Value} (unknown : unknownTag? script = some tag) :
    findings script = [.wrong (.here (.unknownOperation tag))] := by
  -- The fields of such a node are not looked at.
  unfold unknownTag? at unknown
  split at unknown
  · split at unknown
    · next tagged =>
      cases unknown
      simp only [findings, tagged]
    · cases unknown
  · cases unknown

/-- Searching findings about no tags goes through the parts to visit. -/
theorem findSome?_findings {found : List Finding} (untagged : Untagged found)
    (each : ∀ path part, .visit path part ∈ found →
      (problems part).findSome? Problem.unknown? = firstUnknown? part) :
    (found.findSome? fun finding => finding.problems.findSome? Problem.unknown?) =
      (found.filterMap Finding.visit?).findSome? fun (path, part) =>
        (firstUnknown? part).map fun (tag, inner) => (tag, path ++ inner) := by
  -- The induction is on the findings: a problem is passed over, and a part is searched.
  induction found with
  | nil => rfl
  | cons finding rest ih =>
    have onward := ih (fun problem member => untagged problem (List.mem_cons_of_mem _ member))
      (fun path part member => each path part (List.mem_cons_of_mem _ member))
    cases finding with
    | wrong problem =>
      have known : problem.unknown? = none := by
        have other := untagged problem List.mem_cons_self
        unfold Problem.unknown?
        split
        · next tag same => exact absurd same (other tag)
        · rfl
      -- A problem that is no unknown tag leaves the search to the later findings.
      have silent : (Finding.wrong problem).problems.findSome? Problem.unknown? = none := by
        simp [Finding.problems, known]
      rw [List.findSome?_cons, silent]
      exact onward
    | visit path part =>
      have here := each path part List.mem_cons_self
      -- A part is searched as a whole, with its path in front of what is found there.
      have inside : (Finding.visit path part).problems.findSome? Problem.unknown? =
          (firstUnknown? part).map fun (tag, inner) => (tag, path ++ inner) := by
        rw [← here, List.map_findSome?, Finding.problems, List.findSome?_map]
        congr 1
        funext problem
        exact problem.unknown?_within path
      rw [List.findSome?_cons, inside, onward]
      rfl

/-- The first unknown tag among the problems of a script is the first that the traversal meets. -/
theorem findSome?_problems (script : Value) :
    (problems script).findSome? Problem.unknown? = firstUnknown? script := by
  -- Once the tag is known, the first unknown one is in the first part that has any.
  induction script using induction_findings with
  | step script ih =>
    rw [problems_eq, firstUnknown?_eq, findSome?_flatMap]
    cases tagged : unknownTag? script with
    | some tag =>
      rw [findings_of_unknownTag? tagged]
      rfl
    | none => exact findSome?_findings (Untagged.findings tagged) ih

end TrialScript

import TrialScript.Proofs.Tree.Reading

/-! Where nodes come from: the traversal of a script meets what every node of its tree is read from. -/

namespace TrialScript.Tree

/-- Among what is found is the part that a tree is read from, unless the tree is a part left out. -/
def FoundIn (found : List Finding) (tree : Tree) : Prop :=
  tree = null ∨ ∃ path part, .visit path part ∈ found ∧ read? part = some tree

section Found

variable {found more : List Finding} {fields parts : Table Value} {key : String} {tree : Tree}

/-- A tree found in some findings is found among more of them. -/
theorem FoundIn.mono (inside : FoundIn found tree) (fewer : found ⊆ more) : FoundIn more tree := by
  rcases inside with absent | ⟨path, part, visit, reads⟩
  · exact .inl absent
  · exact .inr ⟨path, part, fewer visit, reads⟩

/-- It makes no difference from where the findings are seen. -/
theorem FoundIn.under (inside : FoundIn found tree) (segment : Segment) :
    FoundIn (found.map (Finding.under segment)) tree := by
  rcases inside with absent | ⟨path, part, visit, reads⟩
  · exact .inl absent
  · exact .inr ⟨segment :: path, part, List.mem_map_of_mem visit, reads⟩

/-- The tree of an item is read from a part that is gone to among the items. -/
theorem foundIn_items {items : List Value} {trees : List Tree} (start : Nat)
    (reads : readItems? items = some trees) (member : tree ∈ trees) :
    FoundIn (itemFindings start items) tree := by
  -- The induction is on the items, from any number on.
  induction items generalizing trees start with
  | nil =>
    cases reads
    cases member
  | cons item rest ih =>
    simp only [readItems?, Option.bind_eq_bind, Option.bind_eq_some_iff, Option.some.injEq] at reads
    obtain ⟨first, readsFirst, later, readsLater, rfl⟩ := reads
    rcases List.mem_cons.mp member with rfl | behind
    · exact .inr ⟨_, item, List.mem_cons_self, readsFirst⟩
    · exact (ih (start + 1) readsLater behind).mono (List.subset_cons_self _ _)

/-- The tree of a side of a clause is read from the part that is gone to there. -/
theorem foundIn_side (reads : readField? key parts = some tree) :
    FoundIn [partFinding key parts] tree := by
  obtain ⟨part, held, reads⟩ := exists_of_readField? reads
  exact .inr ⟨[.field key], part, by simp [partFinding, held], reads⟩

/-- The trees of a clause are read from parts that are gone to among the clauses. -/
theorem foundIn_clauses {items : List Value} {clauses : List (Tree × Tree)} (start : Nat)
    (reads : readClauseItems? items = some clauses) (member : tree ∈ (cond clauses).parts) :
    FoundIn (clauseFindings start items) tree := by
  -- The induction is on the clauses, each of which has a guard and a body.
  induction items generalizing clauses start with
  | nil =>
    cases reads
    cases member
  | cons item rest ih =>
    cases item with
    | dict sides =>
      simp only [readClauseItems?, Option.bind_eq_bind, Option.bind_eq_some_iff,
        Option.some.injEq] at reads
      obtain ⟨guard, readsGuard, body, readsBody, later, readsLater, rfl⟩ := reads
      simp only [Tree.parts, List.flatMap_cons, List.mem_append, List.mem_cons, List.not_mem_nil,
        or_false] at member
      rcases member with (rfl | rfl) | behind
      · refine ((foundIn_side readsGuard).under (.item start)).mono ?_
        simp [clauseFindings]
      · refine ((foundIn_side readsBody).under (.item start)).mono ?_
        simp [clauseFindings]
      · exact (ih (start + 1) readsLater behind).mono (List.subset_append_right _ _)
    | scalar | list | date | datetime => cases reads

/-- What is found in a field of a node is found in the node. -/
theorem heldFindings_subset {op : Operation} {field : Field} {value : Value}
    (known : operationOf fields = .ok op) (listed : field ∈ op.fields fields)
    (held : fields.lookup? field.key = some value) :
    heldFindings op field value ⊆ findings (.dict fields) := by
  intro finding inside
  rw [findings, known]
  exact List.mem_flatMap.mpr ⟨field, listed, by rwa [fieldFindings, held]⟩

/-- A tree read from a field is read from a part that is gone to in that field. -/
theorem foundIn_of_readFrom {op : Operation} (known : operationOf fields = .ok op)
    (source : ReadFrom fields op tree) : FoundIn (findings (.dict fields)) tree := by
  -- One case for each way in which a tree comes from a field; one that is left out is null.
  cases source with
  | @field key _ listed reads =>
    obtain ⟨part, held, reads⟩ := exists_of_readField? reads
    have inside : FoundIn (heldFindings op ⟨key, .tree⟩ part) tree :=
      .inr ⟨_, part, List.mem_singleton_self _, reads⟩
    exact inside.mono (heldFindings_subset known listed held)
  | @optional key _ listed reads =>
    rcases null_or_exists_of_readOptional? reads with absent | ⟨part, held, reads⟩
    · exact .inl absent
    · have inside : FoundIn (heldFindings op ⟨key, .optionalTree⟩ part) tree :=
        .inr ⟨_, part, List.mem_singleton_self _, reads⟩
      exact inside.mono (heldFindings_subset known listed held)
  | @several key _ _ listed reads member =>
    obtain ⟨items, held, reads⟩ := exists_items_of_readTrees? reads
    have inside := (foundIn_items 0 reads member).under (.field key)
    rcases listed with listed | listed
    · exact inside.mono (heldFindings_subset known listed held)
    · exact inside.mono (heldFindings_subset known listed held)
  | @side key _ _ listed reads member =>
    obtain ⟨items, held, reads⟩ := exists_items_of_readClauses? reads
    have inside := (foundIn_clauses 0 reads member).under (.field key)
    exact inside.mono (heldFindings_subset known listed held)

/-- Every part of a tree is read from a part that the traversal goes to from its script. -/
theorem foundIn_of_mem_parts {script : Value} {part : Tree} (reads : read? script = some tree)
    (member : part ∈ tree.parts) : FoundIn (findings script) part := by
  cases script with
  | scalar value =>
    cases reads
    cases member
  | list items =>
    simp only [read?, Option.map_eq_some_iff] at reads
    obtain ⟨trees, reads, rfl⟩ := reads
    exact foundIn_items 0 reads member
  | dict fields =>
    -- A node without a known operation has no tree.
    cases known : operationOf fields with
    | error defect => simp [read?, known] at reads
    | ok op => exact foundIn_of_readFrom known (readFrom_of_mem_parts known reads member)
  | date day | datetime moment => cases reads

end Found

/-- Every node of a tree is a part that was left out, or is read from what the traversal meets. -/
theorem visited_of_mem_nodes {script : Value} {tree node : Tree} (reads : read? script = some tree)
    (inside : node ∈ tree.nodes) :
    node = null ∨ ∃ path part, (path, part) ∈ visited script ∧ read? part = some node := by
  -- The induction follows the traversal from a script to the parts that it goes to.
  induction script using induction_findings generalizing tree with
  | step script ih =>
    rw [nodes_eq, List.mem_cons, List.mem_flatMap] at inside
    rcases inside with rfl | ⟨part, member, inside⟩
    · exact .inr ⟨[], script, mem_visited_self script, reads⟩
    · rcases foundIn_of_mem_parts reads member with rfl | ⟨path, source, visit, readsPart⟩
      · rw [nodes_eq] at inside
        exact .inl (List.mem_singleton.mp inside)
      · rcases ih path source visit readsPart inside with absent | ⟨inner, met, deeper, readsNode⟩
        · exact .inl absent
        · exact .inr ⟨path ++ inner, met, mem_visited visit deeper, readsNode⟩

end TrialScript.Tree

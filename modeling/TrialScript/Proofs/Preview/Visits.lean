import TrialScript.Proofs.Preview.Composition

/-! What a preview that gave a result has visited: parts in turn, and branches on layers of their own. -/

namespace TrialScript

/-- Scripts that were previewed in turn, each with a result. -/
inductive Visited : List Tree → Store Description → Store Description → Prop where
  | nil (store : Store Description) : Visited [] store store
  | cons {part : Tree} {rest : List Tree} {before middle after : Store Description}
      {found : Description} (ran : (preview part).run before = (.ok found, middle))
      (visited : Visited rest middle after) : Visited (part :: rest) before after

/-- Clauses that were previewed in turn, and what each body assigned on a layer of its own. -/
inductive Gathered : List (Tree × Tree) → Store Description → List (Table Description) →
    Store Description → Prop where
  | nil (store : Store Description) : Gathered [] store [] store
  | cons {guard body : Tree} {rest : List (Tree × Tree)} {branches : List (Table Description)}
      {before middle inner after : Store Description} {decided given : Description}
      (guarded : (preview guard).run before = (.ok decided, middle))
      (branched : (preview body).run middle.push = (.ok given, inner))
      (gathered : Gathered rest middle branches after) :
      Gathered ((guard, body) :: rest) before (inner.locals :: branches) after

namespace Tree

variable {guard body : Tree} {clauses : List (Tree × Tree)}

/-- A guard is a part of its condition. -/
theorem guard_mem_parts (member : (guard, body) ∈ clauses) : guard ∈ (cond clauses).parts :=
  List.mem_flatMap.mpr ⟨(guard, body), member, List.mem_cons_self⟩

/-- A body is a part of its condition. -/
theorem body_mem_parts (member : (guard, body) ∈ clauses) : body ∈ (cond clauses).parts :=
  List.mem_flatMap.mpr ⟨(guard, body), member, List.mem_cons_of_mem _ List.mem_cons_self⟩

end Tree

namespace Visited

variable {before after : Store Description}

/-- Items that were described were visited. -/
theorem of_items {items : List Tree} {found : List Description}
    (ran : (previewItems items).run before = (.ok found, after)) : Visited items before after := by
  -- The induction is on the items, each of which has a description of its own.
  induction items generalizing before found with
  | nil =>
    cases ran
    exact .nil _
  | cons item rest ih =>
    rw [previewItems] at ran
    obtain ⟨first, middle, ranFirst, ran⟩ := Stateful.run_bind_ok ran
    obtain ⟨others, last, ranRest, ran⟩ := Stateful.run_bind_ok ran
    cases ran
    exact .cons ranFirst (ih ranRest)

end Visited

/-- A branch runs on a layer of its own, which is all that it leaves behind. -/
theorem run_inBranch (branch : Survey Description) (before : Store Description) :
    (inBranch branch).run before = match branch.run before.push with
      | (.ok _, inner) => (.ok inner.locals, before)
      | (.error fault, _) => (.error fault, before) := rfl

/-- A branch with a result leaves the layers below as they were, and gives what it assigned. -/
theorem inBranch_ok {branch : Survey Description} {before after : Store Description}
    {found : Table Description} (ran : (inBranch branch).run before = (.ok found, after)) :
    ∃ given inner, branch.run before.push = (.ok given, inner) ∧ found = inner.locals ∧
      after = before := by
  -- A branch that stopped would have stopped the whole.
  rw [run_inBranch] at ran
  cases inside : branch.run before.push with
  | mk outcome inner =>
    rw [inside] at ran
    cases outcome with
    | ok given =>
      cases ran
      exact ⟨given, inner, rfl, rfl, rfl⟩
    | error fault => cases ran

/-- Clauses that were described were gathered. -/
theorem Gathered.of_clauses {clauses : List (Tree × Tree)} {before after : Store Description}
    {branches : List (Table Description)}
    (ran : (previewClauses clauses).run before = (.ok branches, after)) :
    Gathered clauses before branches after := by
  -- The induction is on the clauses, each with a guard and a branch that had results.
  induction clauses generalizing before branches with
  | nil =>
    cases ran
    exact .nil _
  | cons clause rest ih =>
    obtain ⟨guard, body⟩ := clause
    rw [previewClauses] at ran
    obtain ⟨decided, middle, guarded, onward⟩ := Stateful.run_bind_ok ran
    obtain ⟨branch, later, branched, further⟩ := Stateful.run_bind_ok onward
    obtain ⟨others, last, ranRest, listed⟩ := Stateful.run_bind_ok further
    obtain ⟨given, inner, inside, rfl, rfl⟩ := inBranch_ok branched
    cases listed
    exact .cons guarded inside (ih ranRest)

/-- An assignment merges what it is given with what is known of the name. -/
theorem describe_ok {name : String} {given merged : Description} {before after : Store Description}
    (ran : (describe name given).run before = (.ok merged, after)) :
    Description.merge (before.get name .unknown) given = .ok merged ∧
      after = before.assign name merged := by
  -- The computation looks, merges and assigns, and only merging can fail.
  rw [describe] at ran
  obtain ⟨known, middle, asked, onward⟩ := Stateful.run_bind_ok ran
  cases asked
  obtain ⟨result, middle, made, further⟩ := Stateful.run_bind_ok onward
  rw [Stateful.run_lift, Prod.mk.injEq] at made
  obtain ⟨made, rfl⟩ := made
  cases further
  exact ⟨made, rfl⟩

/-- A preview with a result of anything but an assignment or a condition visited its parts. -/
theorem Visited.of_preview {tree : Tree} {before after : Store Description} {found : Description}
    (ran : (preview tree).run before = (.ok found, after)) (named : tree.ownName? = none)
    (plain : ∀ clauses, tree ≠ .cond clauses) : Visited (tree.surveyed before) before after := by
  rw [run_preview named plain] at ran
  obtain ⟨described, middle, listed, onward⟩ := Stateful.run_bind_ok ran
  -- What is made of the descriptions of the parts changes nothing.
  rw [Stateful.run_lift, Prod.mk.injEq] at onward
  obtain ⟨-, rfl⟩ := onward
  exact .of_items listed

/-- How a preview with a result went: it assigned, it joined branches, or it only visited parts. -/
inductive Previewed : Tree → Store Description → Store Description → Prop where
  | assign {name : String} {value : Tree} {before middle : Store Description}
      {given merged : Description} (valued : (preview value).run before = (.ok given, middle))
      (merges : Description.merge (middle.get name .unknown) given = .ok merged) :
      Previewed (.assign name value) before (middle.assign name merged)
  | cond {clauses : List (Tree × Tree)} {before middle after : Store Description}
      {branches : List (Table Description)} (gathered : Gathered clauses before branches middle)
      (joined : (assignJoined (branches.foldl collectBranch [])).run middle = (.ok (), after)) :
      Previewed (.cond clauses) before after
  | parts {tree : Tree} {before after : Store Description} (named : tree.ownName? = none)
      (plain : ∀ clauses, tree ≠ .cond clauses)
      (visited : Visited (tree.surveyed before) before after) : Previewed tree before after

/-- Every preview with a result went in one of these ways. -/
theorem Previewed.of_run {tree : Tree} {before after : Store Description} {found : Description}
    (ran : (preview tree).run before = (.ok found, after)) : Previewed tree before after := by
  -- Assignments and conditions change descriptions themselves, and nothing else does.
  cases tree with
  | assign name value =>
    rw [preview] at ran
    obtain ⟨given, middle, valued, onward⟩ := Stateful.run_bind_ok ran
    obtain ⟨merges, rfl⟩ := describe_ok onward
    exact .assign valued merges
  | cond clauses =>
    rw [preview] at ran
    obtain ⟨branches, middle, gathered, onward⟩ := Stateful.run_bind_ok ran
    obtain ⟨_, last, joined, further⟩ := Stateful.run_bind_ok onward
    cases further
    exact .cond (.of_clauses gathered) joined
  | _ => exact .parts rfl (by simp) (.of_preview ran rfl (by simp))

end TrialScript

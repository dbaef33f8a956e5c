import TrialScript.Proofs.Preview.Visits

/-! What a preview comes to in a script, and that it stops wherever this does. -/

namespace TrialScript

namespace Visited

variable {parts : List Tree} {before after : Store Description}

/-- Parts that were visited in turn are described, all of them. -/
theorem described (visited : Visited parts before after) :
    ∃ found, (previewItems parts).run before = (.ok found, after) := by
  -- The induction is over the visits, each of which adds one description.
  induction visited with
  | nil store => exact ⟨[], rfl⟩
  | @cons part rest before middle after first ran _ ih =>
    obtain ⟨others, ranRest⟩ := ih
    refine ⟨first :: others, ?_⟩
    rw [previewItems, Stateful.run_bind, ran]
    simp only [Stateful.run_bind, ranRest, Stateful.run_pure]

/-- One more part may be visited after the others. -/
theorem snoc {part : Tree} {found : Description} {last : Store Description}
    (visited : Visited parts before after) (ran : (preview part).run after = (.ok found, last)) :
    Visited (parts ++ [part]) before last := by
  induction visited with
  | nil store => exact .cons ran (.nil last)
  | cons here _ ih => exact .cons here (ih ran)

/-- A part that stops after others were visited stops the items that it is among. -/
theorem stops {part : Tree} {later : List Tree} {fault : Fault} {last : Store Description}
    (visited : Visited parts before after)
    (stopped : (preview part).run after = (.error fault, last)) :
    (previewItems (parts ++ part :: later)).run before = (.error fault, last) := by
  -- By induction on the parts before it, which were all visited without a fault.
  induction visited with
  | nil store => rw [List.nil_append, previewItems, Stateful.run_bind, stopped]
  | cons ran _ ih =>
    rw [List.cons_append, previewItems, Stateful.run_bind, ran]
    simp only [Stateful.run_bind, ih stopped]

end Visited

namespace Gathered

variable {clauses : List (Tree × Tree)} {branches : List (Table Description)}
  {before after : Store Description}

/-- Clauses that were gathered had their guards visited in turn, and nothing else is left. -/
theorem visited (gathered : Gathered clauses before branches after) :
    Visited (clauses.map Prod.fst) before after := by
  induction gathered with
  | nil store => exact .nil store
  | cons guarded _ _ ih => exact .cons guarded ih

/-- Clauses that stop after others were gathered stop all of them. -/
theorem stops {later : List (Tree × Tree)} {fault : Fault} {last : Store Description}
    (gathered : Gathered clauses before branches after)
    (stopped : (previewClauses later).run after = (.error fault, last)) :
    (previewClauses (clauses ++ later)).run before = (.error fault, last) := by
  -- The induction is over the gathered clauses, each of which had two results.
  induction gathered with
  | nil store => exact stopped
  | cons guarded branched _ ih =>
    rw [List.cons_append, previewClauses, Stateful.run_bind, guarded]
    simp only [Stateful.run_bind, run_inBranch, branched, ih stopped]

end Gathered

/--
What a preview of a script comes to, through how many branches, and what is recorded by then.

Earlier parts, and earlier clauses with guard and body, have had results. A body is previewed on a
layer of its own, above what the guards up to its own have left.
-/
inductive Reaches : Nat → Tree → Store Description → Tree → Store Description → Prop where
  | here (tree : Tree) (store : Store Description) : Reaches 0 tree store tree store
  | part {depth : Nat} {tree part node : Tree} {earlier later : List Tree}
      {before between inner : Store Description}
      (among : tree.surveyed before = earlier ++ part :: later)
      (visited : Visited earlier before between) (onward : Reaches depth part between node inner) :
      Reaches depth tree before node inner
  | guard {depth : Nat} {guard body node : Tree} {earlier later : List (Tree × Tree)}
      {branches : List (Table Description)} {before between inner : Store Description}
      (gathered : Gathered earlier before branches between)
      (onward : Reaches depth guard between node inner) :
      Reaches depth (.cond (earlier ++ (guard, body) :: later)) before node inner
  | body {depth : Nat} {guard body node : Tree} {earlier later : List (Tree × Tree)}
      {branches : List (Table Description)} {before between present inner : Store Description}
      {decided : Description} (gathered : Gathered earlier before branches between)
      (guarded : (preview guard).run between = (.ok decided, present))
      (onward : Reaches depth body present.push node inner) :
      Reaches (depth + 1) (.cond (earlier ++ (guard, body) :: later)) before node inner

/-- A preview comes only to what is inside the script. -/
theorem Reaches.mem_nodes {depth : Nat} {tree node : Tree} {store inner : Store Description}
    (reached : Reaches depth tree store node inner) : node ∈ tree.nodes := by
  -- The induction is over the way, on which every step goes to a part.
  induction reached with
  | here tree store => exact Tree.mem_nodes_self tree
  | @part _ tree part _ _ _ before _ _ among _ _ ih =>
    have member : part ∈ tree.surveyed before := by
      rw [among]
      exact List.mem_append_cons_self
    exact Tree.mem_nodes_of_part (Tree.mem_parts_of_mem_surveyed member) ih
  | guard _ _ ih => exact Tree.mem_nodes_of_part (Tree.guard_mem_parts List.mem_append_cons_self) ih
  | body _ _ _ ih => exact Tree.mem_nodes_of_part (Tree.body_mem_parts List.mem_append_cons_self) ih

/-- A part that stops after others were visited stops the script, which changes nothing more. -/
theorem preview_stops_at_part {tree part : Tree} {earlier later : List Tree}
    {before between last : Store Description} {fault : Fault}
    (among : tree.surveyed before = earlier ++ part :: later)
    (visited : Visited earlier before between)
    (stopped : (preview part).run between = (.error fault, last)) :
    (preview tree).run before = (.error fault, last) := by
  have items : (previewItems (tree.surveyed before)).run before = (.error fault, last) := by
    rw [among]
    exact visited.stops stopped
  -- An assignment describes its value first, and a condition has no part on the same layer.
  cases tree with
  | assign name value =>
    obtain ⟨rfl, first⟩ | ⟨_, none⟩ := List.singleton_eq_append_iff.mp among
    · cases first
      cases visited
      rw [preview, Stateful.run_bind, stopped]
    · exact absurd none (List.cons_ne_nil _ _)
  | cond clauses => exact absurd among (by simp [Tree.surveyed])
  | _ => rw [run_preview rfl (by simp), Stateful.run_bind, items]

/-- Clauses that stop stop their condition, which joins nothing. -/
theorem preview_stops_at_clauses {clauses : List (Tree × Tree)} {before last : Store Description}
    {fault : Fault} (stopped : (previewClauses clauses).run before = (.error fault, last)) :
    (preview (.cond clauses)).run before = (.error fault, last) := by
  rw [preview, Stateful.run_bind, stopped]

/-- A body that stops stops its condition, and leaves what the guards up to its own have left. -/
theorem preview_stops_at_body {guard body : Tree} {earlier later : List (Tree × Tree)}
    {branches : List (Table Description)} {before between present : Store Description}
    {decided : Description} {fault : Fault} (gathered : Gathered earlier before branches between)
    (guarded : (preview guard).run between = (.ok decided, present))
    (stopped : ((preview body).run present.push).1 = .error fault) :
    (preview (.cond (earlier ++ (guard, body) :: later))).run before = (.error fault, present) := by
  refine preview_stops_at_clauses (gathered.stops ?_)
  rw [previewClauses, Stateful.run_bind, guarded]
  -- The layer of the body goes away with what is on it.
  cases ran : (preview body).run present.push with
  | mk outcome inner =>
    rw [ran] at stopped
    subst stopped
    simp only [Stateful.run_bind, run_inBranch, ran]

/-- A script stops where anything that it comes to stops, and on the same layer leaves the same. -/
theorem Reaches.stops {depth : Nat} {tree node : Tree} {store inner last : Store Description}
    {fault : Fault} (reached : Reaches depth tree store node inner)
    (stopped : (preview node).run inner = (.error fault, last)) :
    ∃ left, (preview tree).run store = (.error fault, left) ∧ (depth = 0 → left = last) := by
  -- The induction is over the way to what stops, from there outwards.
  induction reached with
  | here tree store => exact ⟨last, stopped, fun _ => rfl⟩
  | part among visited _ ih =>
    obtain ⟨left, ran, same⟩ := ih stopped
    exact ⟨left, preview_stops_at_part among visited ran, same⟩
  | guard gathered _ ih =>
    obtain ⟨left, ran, same⟩ := ih stopped
    refine ⟨left, preview_stops_at_clauses (gathered.stops ?_), same⟩
    rw [previewClauses, Stateful.run_bind, ran]
  | body gathered guarded _ ih =>
    obtain ⟨left, ran, -⟩ := ih stopped
    exact ⟨_, preview_stops_at_body gathered guarded (congrArg Prod.fst ran), fun deeper =>
      absurd deeper (Nat.succ_ne_zero _)⟩

end TrialScript

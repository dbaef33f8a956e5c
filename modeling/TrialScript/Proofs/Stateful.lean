import Mathlib.Data.List.Forall2
import TrialScript.Fault

/-! Laws of computations that change a state and may stop with a fault. -/

namespace TrialScript

/-- A computation that may change a state and may stop with a fault, keeping changes made so far. -/
abbrev Stateful (σ : Type) := ExceptT Fault (StateM σ)

variable {σ α β : Type}

/-- A check that has passed leaves it to the next one, with what it found. -/
theorem check_ok_bind (found : α) (rest : α → Except Fault β) :
    (.ok found >>= rest) = rest found := rfl

/-- Checks after a first one may be exchanged for others that agree on what the first found. -/
theorem check_bind_congr {first : Except Fault α} {rest others : α → Except Fault β}
    (alike : ∀ found, first = .ok found → rest found = others found) :
    (first >>= rest) = (first >>= others) := by
  -- What the first check did not find is never handed over.
  cases first with
  | ok found => exact alike found rfl
  | error fault => rfl

/-- Two checks in a row pass when both do, the second with what the first found. -/
theorem check_bind_ok {first : Except Fault α} {rest : α → Except Fault β} {result : β}
    (gave : (first >>= rest) = .ok result) :
    ∃ between, first = .ok between ∧ rest between = .ok result := by
  -- A fault in the first check would be the fault of both.
  cases first with
  | ok between => exact ⟨between, rfl, gave⟩
  | error fault => cases gave

/-- A check succeeds if it finds something. -/
def Succeeds (checked : Except Fault α) : Prop :=
  ∃ found, checked = .ok found

namespace Succeeds

/-- A result is a success. -/
theorem ok (found : α) : Succeeds (.ok found) :=
  ⟨found, rfl⟩

/-- A check that stops with a fault does not succeed. -/
theorem not_error (fault : Fault) : ¬ Succeeds (.error fault : Except Fault α) := by
  rintro ⟨found, ⟨⟩⟩

/-- Two checks in a row succeed if the second does with what the first finds. -/
theorem bind_iff {first : Except Fault α} {rest : α → Except Fault β} :
    Succeeds (first >>= rest) ↔ ∃ between, first = .ok between ∧ Succeeds (rest between) := by
  -- Whatever succeeds in the end has found something between.
  constructor
  · rintro ⟨result, gave⟩
    obtain ⟨between, found, onward⟩ := check_bind_ok gave
    exact ⟨between, found, result, onward⟩
  · rintro ⟨between, found, onward⟩
    exact found ▸ onward

/-- A check behind a guard succeeds if the guard does not stop it. -/
theorem guard_iff {condition : Prop} [Decidable condition] {fault : Fault}
    {checked : Except Fault α} :
    Succeeds (if condition then throw fault else checked) ↔ ¬ condition ∧ Succeeds checked := by
  split
  · next stops => exact ⟨fun found => (not_error fault found).elim, fun both => (both.1 stops).elim⟩
  · next goes => exact ⟨fun found => ⟨goes, found⟩, fun both => both.2⟩

/-- What is made of a finding changes nothing about whether there is one. -/
theorem map_iff {form : α → β} {checked : Except Fault α} :
    Succeeds (form <$> checked) ↔ Succeeds checked := by
  cases checked with
  | ok found => exact ⟨fun _ => ok found, fun _ => ok (form found)⟩
  | error fault => exact ⟨fun found => (not_error fault found).elim, fun found =>
      (not_error fault found).elim⟩

end Succeeds

/-- Whatever a check finds, if it passes, is good. -/
def Gives (good : α → Prop) (checked : Except Fault α) : Prop :=
  ∀ found, checked = .ok found → good found

namespace Gives

variable {good : α → Prop} {goodAfter : β → Prop} {checked : Except Fault α}

/-- A check that passes with something good. -/
theorem ok {found : α} (here : good found) : Gives good (.ok found) := by
  rintro _ ⟨⟩
  exact here

/-- A check that does not pass finds nothing. -/
theorem error (fault : Fault) : Gives good (.error fault) := by
  rintro _ ⟨⟩

/-- Nothing is asked of what is found. -/
theorem any (checked : Except Fault α) : Gives (fun _ => True) checked :=
  fun _ _ => trivial

/-- Two checks in a row find what the second finds, which may rely on what the first found. -/
theorem bind {rest : α → Except Fault β} (first : Gives good checked)
    (next : ∀ found, good found → Gives goodAfter (rest found)) :
    Gives goodAfter (checked >>= rest) := by
  -- The first check passes, or the second is not made.
  cases checked with
  | ok found => exact next found (first found rfl)
  | error fault => exact error fault

/-- A fold finds something good if it starts from it and every step that it comes to keeps it so. -/
theorem foldlM_of {items : List β} {step : α → β → Except Fault α} {start : α} (here : good start)
    (each : ∀ {earlier item later total}, items = earlier ++ item :: later →
      earlier.foldlM step start = .ok total → good total → Gives good (step total item)) :
    Gives good (items.foldlM step start) := by
  -- The induction is on the items, from any good start.
  induction items generalizing start with
  | nil => exact ok here
  | cons item rest ih =>
    intro result gave
    rw [List.foldlM_cons] at gave
    obtain ⟨between, stepped, onward⟩ := check_bind_ok gave
    have first : good between := each (List.nil_append _).symm rfl here between stepped
    refine ih first (fun {earlier next later total} among folded goodTotal => ?_) result onward
    have whole : item :: rest = (item :: earlier) ++ next :: later := congrArg _ among
    refine each whole ?_ goodTotal
    rw [List.foldlM_cons, stepped]
    exact folded

/-- A fold finds something good if it starts from it and every step keeps it so. -/
theorem foldlM {items : List β} {step : α → β → Except Fault α}
    (each : ∀ total, ∀ item ∈ items, good total → Gives good (step total item)) {start : α}
    (here : good start) : Gives good (items.foldlM step start) :=
  foldlM_of here fun among _ => each _ _ (among ▸ List.mem_append_cons_self)

/-- Checks of all items find what is good for one item after the other, if each of them does. -/
theorem forall₂_mapM {good : β → α → Prop} {items : List β} {check : β → Except Fault α}
    (each : ∀ item ∈ items, Gives (good item) (check item)) :
    Gives (List.Forall₂ good items) (items.mapM check) := by
  -- The induction is on the items, each of which adds one result.
  induction items with
  | nil => exact ok .nil
  | cons item rest ih =>
    obtain ⟨here, others⟩ := List.forall_mem_cons.mp each
    rw [List.mapM_cons]
    exact bind here fun first goodFirst => bind (ih others) fun results goodOthers =>
      ok (.cons goodFirst goodOthers)

/-- Checks of all items find only what is good, if each of them does. -/
theorem mapM {items : List β} {check : β → Except Fault α}
    (each : ∀ item ∈ items, Gives good (check item)) :
    Gives (fun results => ∀ result ∈ results, good result) (items.mapM check) := by
  intro results gave
  have oneByOne : List.Forall₂ (fun result _ => good result ∧ True) results items :=
    (forall₂_mapM each results gave).flip.imp fun _ _ fine => ⟨fine, trivial⟩
  exact ((List.forall₂_and_left _ _).mp oneByOne).1

end Gives

/-- Where every item has a good result, the results of all of them are good one by one. -/
theorem mapM_of_each {check : α → Except Fault β} {good : α → β → Prop}
    {items : List α} (each : ∀ item ∈ items, ∃ result, check item = .ok result ∧ good item result) :
    ∃ results, items.mapM check = .ok results ∧ List.Forall₂ good items results := by
  -- The induction is on the items, each of which adds one result.
  induction items with
  | nil => exact ⟨[], rfl, .nil⟩
  | cons item rest ih =>
    obtain ⟨⟨result, checked, fine⟩, others⟩ := List.forall_mem_cons.mp each
    obtain ⟨results, checkedRest, fineRest⟩ := ih others
    refine ⟨result :: results, ?_, .cons fine fineRest⟩
    rw [List.mapM_cons, checked, checkedRest]
    rfl

/-- Checks of all items that pass give as many results as there are items. -/
theorem length_of_mapM_ok {check : α → Except Fault β} {items : List α} {results : List β}
    (gave : items.mapM check = .ok results) : results.length = items.length :=
  (Gives.forall₂_mapM (fun item _ => .any (check item)) results gave).length_eq.symm

namespace Stateful

/-- A result leaves the state as it is. -/
@[simp] theorem run_pure (result : α) (state : σ) :
    (pure result : Stateful σ α).run state = (.ok result, state) := rfl

/-- A fault leaves the state as it is. -/
@[simp] theorem run_throw (fault : Fault) (state : σ) :
    (throw fault : Stateful σ α).run state = (.error fault, state) := rfl

/-- Reading gives the state and leaves it as it is. -/
@[simp] theorem run_get (state : σ) :
    (get : Stateful σ σ).run state = (.ok state, state) := rfl

/-- Changing gives nothing but the new state. -/
@[simp] theorem run_modify (change : σ → σ) (state : σ) :
    (modify change : Stateful σ Unit).run state = (.ok (), change state) := rfl

/-- A result that needs no state leaves the state as it is. -/
@[simp] theorem run_lift (result : Except Fault α) (state : σ) :
    (liftM result : Stateful σ α).run state = (result, state) := rfl

/-- A result without a fault is the result of doing nothing else. -/
@[simp] theorem lift_ok (result : α) :
    (liftM (.ok result : Except Fault α) : Stateful σ α) = pure result :=
  rfl

/-- After a result the rest runs on the changed state; after a fault nothing runs. -/
theorem run_bind (first : Stateful σ α) (rest : α → Stateful σ β) (state : σ) :
    (first >>= rest).run state = match first.run state with
      | (.ok result, after) => (rest result).run after
      | (.error fault, after) => (.error fault, after) := by
  -- Both sides look at the outcome of the first computation and go on from its state.
  show (ExceptT.bindCont rest (first.run state).1) (first.run state).2 = _
  cases first.run state with
  | mk outcome after => cases outcome <;> rfl

/-- The outcome of a sequence is that of the rest on what the first computation left. -/
theorem run_bind_fst (first : Stateful σ α) (rest : α → Stateful σ β) (state : σ) :
    ((first >>= rest).run state).1 =
      (first.run state).1 >>= fun result => ((rest result).run (first.run state).2).1 := by
  rw [run_bind]
  cases first.run state with
  | mk outcome after => cases outcome <;> rfl

/-- A finished sequence has two finished parts, the second starting where the first ended. -/
theorem run_bind_ok {first : Stateful σ α} {rest : α → Stateful σ β} {state after : σ} {result : β}
    (ran : (first >>= rest).run state = (.ok result, after)) :
    ∃ between middle, first.run state = (.ok between, middle) ∧
      (rest between).run middle = (.ok result, after) := by
  -- Had the first part stopped, the whole would have stopped with it.
  rw [run_bind] at ran
  cases began : first.run state with
  | mk outcome middle =>
    cases outcome with
    | ok between => exact ⟨between, middle, rfl, by simpa only [began] using ran⟩
    | error fault =>
      rw [began] at ran
      cases ran

end Stateful

/-- Every run of a computation relates the state before it to the state after it. -/
def Keeps (relation : σ → σ → Prop) (computation : Stateful σ α) : Prop :=
  ∀ state, relation state (computation.run state).2

namespace Keeps

variable {relation : σ → σ → Prop}

/-- A sequence keeps a transitive relation that both of its parts keep. -/
theorem bind {first : Stateful σ α} {rest : α → Stateful σ β}
    (trans : ∀ {a b c}, relation a b → relation b c → relation a c)
    (keepsFirst : Keeps relation first) (keepsRest : ∀ result, Keeps relation (rest result)) :
    Keeps relation (first >>= rest) := by
  -- After a fault only the first part has changed the state.
  intro state
  have began := keepsFirst state
  rw [Stateful.run_bind]
  cases ran : first.run state with
  | mk outcome middle =>
    rw [ran] at began
    cases outcome with
    | ok result => exact trans began (keepsRest result middle)
    | error fault => exact began

end Keeps

/-- From some state a computation leaves a property, also where it stops, and gives what is good. -/
def Leaves (steady : σ → Prop) (good : α → Prop) (computation : Stateful σ α) (state : σ) : Prop :=
  steady (computation.run state).2 ∧ Gives good (computation.run state).1

/-- A run with a result leaves the property and something good. -/
theorem Leaves.of_ran {steady : σ → Prop} {good : α → Prop} {computation : Stateful σ α}
    {state after : σ} {result : α} (leaves : Leaves steady good computation state)
    (ran : computation.run state = (.ok result, after)) : steady after ∧ good result := by
  obtain ⟨left, found⟩ := leaves
  rw [ran] at left found
  exact ⟨left, found result rfl⟩

/-- A sequence leaves what its second part does, which may rely on what the first one left. -/
theorem Leaves.bind {steady : σ → Prop} {good : α → Prop} {goodAfter : β → Prop} {state : σ}
    {first : Stateful σ α} {rest : α → Stateful σ β} (here : Leaves steady good first state)
    (onward : ∀ found after, first.run state = (.ok found, after) → steady after → good found →
      Leaves steady goodAfter (rest found) after) :
    Leaves steady goodAfter (first >>= rest) state := by
  -- After a fault only the first part has changed the state.
  obtain ⟨between, found⟩ := here
  unfold Leaves
  rw [Stateful.run_bind]
  cases ran : first.run state with
  | mk outcome middle =>
    rw [ran] at between found
    cases outcome with
    | ok result => exact onward result middle ran between (found result rfl)
    | error fault => exact ⟨between, .error fault⟩

/-- A computation keeps a property of states, also where it stops, and gives only what is good. -/
def Maintains (steady : σ → Prop) (good : α → Prop) (computation : Stateful σ α) : Prop :=
  ∀ state, steady state → steady (computation.run state).2 ∧ Gives good (computation.run state).1

namespace Maintains

variable {steady : σ → Prop} {good : α → Prop} {goodAfter : β → Prop}

/-- A result that needs no state maintains whatever holds of it. -/
theorem lift {result : Except Fault α} (checked : Gives good result) :
    Maintains steady good (liftM result : Stateful σ α) :=
  fun _ here => ⟨here, checked⟩

/-- A result that is there already maintains whatever holds of it. -/
theorem done {result : α} (here : good result) : Maintains steady good (pure result : Stateful σ α) :=
  fun _ steadyState => ⟨steadyState, .ok here⟩

/-- A state that is looked at has the property. -/
theorem get : Maintains steady steady (get : Stateful σ σ) :=
  fun _ here => ⟨here, .ok here⟩

/-- A change maintains a property that it keeps. -/
theorem modify {change : σ → σ} (keeps : ∀ state, steady state → steady (change state)) :
    Maintains steady (fun _ => True) (modify change : Stateful σ Unit) :=
  fun state here => ⟨keeps state here, .ok trivial⟩

/-- A run with a result leaves the property and something good. -/
theorem of_ran {computation : Stateful σ α} (maintains : Maintains steady good computation)
    {state after : σ} {result : α} (here : steady state)
    (ran : computation.run state = (.ok result, after)) : steady after ∧ good result :=
  Leaves.of_ran (maintains state here) ran

/-- A sequence maintains what its second part does, which may rely on what the first one found. -/
theorem bind {first : Stateful σ α} {rest : α → Stateful σ β}
    (maintains : Maintains steady good first)
    (onward : ∀ found, good found → Maintains steady goodAfter (rest found)) :
    Maintains steady goodAfter (first >>= rest) := by
  intro state here
  exact Leaves.bind (maintains state here) fun found after _ left good =>
    onward found good after left

end Maintains
end TrialScript

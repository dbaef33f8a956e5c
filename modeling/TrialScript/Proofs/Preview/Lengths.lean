import TrialScript.Preview
import TrialScript.Proofs.Description.Intervals
import TrialScript.Proofs.Evaluation.Machine
import TrialScript.Proofs.Trial.Bernoulli
import TrialScript.Proofs.Trial.Draws
import TrialScript.Proofs.Trial.Sampling

/-! Lengths of lists that are written, drawn or chosen, in runs and in previews. -/

namespace TrialScript

namespace Tree

/-- A number of draws that is left out, or an integer. -/
inductive Draws : Tree → Prop where
  | none : Draws .null
  | scalar (count : Int) : Draws (.scalar (.num (.int count)))
  | literal (count : Int) : Draws (.literal (.int count))

/-- A script that picks from listed parts: it chooses one of them, samples some, or filters them. -/
inductive Picks (items : List Tree) : Tree → Prop where
  | uniformChoice (unit : Tree) : Picks items (.uniformChoice (.array items) unit)
  | weightedChoice (weights unit : Tree) : Picks items (.weightedChoice (.array items) weights unit)
  | sample {draws : Tree} (counted : draws.Draws) (unit : Tree) :
      Picks items (.sample (.array items) draws unit)
  | bernoulliFilter (probability unit : Tree) :
      Picks items (.bernoulliFilter probability (.array items) unit)

/-- A script made of constants, of lists, and of what is picked from listed parts. -/
inductive Listing : Tree → Prop where
  | scalar (value : Scalar) : Listing (.scalar value)
  | literal (value : Scalar) : Listing (.literal (.scalar value))
  | array {items : List Tree} (each : ∀ item ∈ items, Listing item) : Listing (.array items)
  | picked {items : List Tree} {tree : Tree} (each : ∀ item ∈ items, Listing item)
      (picks : Picks items tree) : Listing tree

/-- How long a list may be that a run makes of a script: as long as it is written, not longer where
some of its items are drawn, and as long as one of the choices may be where one is chosen. -/
inductive Yields : Tree → Nat → Prop where
  | array (items : List Tree) : Yields (.array items) items.length
  | uniformChoice {items : List Tree} {unit choice : Tree} {length : Nat} (member : choice ∈ items)
      (yields : Yields choice length) : Yields (.uniformChoice (.array items) unit) length
  | weightedChoice {items : List Tree} {weights unit choice : Tree} {length : Nat}
      (member : choice ∈ items) (yields : Yields choice length) :
      Yields (.weightedChoice (.array items) weights unit) length
  | sample {items : List Tree} {draws unit : Tree} {length : Nat} (fewer : length ≤ items.length) :
      Yields (.sample (.array items) draws unit) length
  | bernoulliFilter {items : List Tree} {probability unit : Tree} {length : Nat}
      (fewer : length ≤ items.length) :
      Yields (.bernoulliFilter probability (.array items) unit) length

/-- Some run of a script gives a value. -/
def MayGive (tree : Tree) (value : Value) : Prop :=
  ∃ before after : Trial, (evaluate tree).run before = (.ok value, after)

/-- The listed parts of a choice of one of them. -/
def choices? : Tree → Option (List Tree)
  | .uniformChoice (.array choices) _ | .weightedChoice (.array choices) _ _ => some choices
  | _ => none

end Tree

section Runs

variable {trial after : Trial} {tree : Tree} {values : List Value}

/-- A script that gives anything but null was not run after the trial had returned. -/
theorem running_of_evaluate {value : Value} (known : value ≠ .null)
    (ran : (evaluate tree).run trial = (.ok value, after)) : trial.returned = false := by
  -- After a return every script gives null.
  rw [Bool.eq_false_iff]
  intro returned
  rw [evaluate_of_returned tree returned] at ran
  cases ran
  exact known rfl

/-- What is demanded as a list is one. -/
theorem of_arrayFor {operation : String} {operand : Value}
    (demanded : arrayFor operation operand = .ok values) : operand = .list values := by
  unfold arrayFor at demanded
  cases operand <;> cases demanded
  rfl

/-- Each evaluated item is what a run of the item at its position gave. -/
theorem of_evaluateItems {items : List Tree}
    (ran : (evaluateItems items).run trial = (.ok values, after)) :
    List.Forall₂ Tree.MayGive items values := by
  -- The induction is on the items, each of which runs on the trial that those before it left.
  induction items generalizing trial values with
  | nil =>
    cases ran
    exact .nil
  | cons item rest ih =>
    rw [evaluateItems] at ran
    obtain ⟨value, middle, first, ran⟩ := Stateful.run_bind_ok ran
    obtain ⟨others, last, later, ran⟩ := Stateful.run_bind_ok ran
    cases ran
    exact .cons ⟨trial, middle, first⟩ (ih later)

/-- A list that is written has the values of its items. -/
theorem of_array {items : List Tree} {value : Value} (known : value ≠ .null)
    (ran : (evaluate (.array items)).run trial = (.ok value, after)) :
    ∃ values, value = .list values ∧ List.Forall₂ Tree.MayGive items values := by
  -- The list was run, so each of its items was, from left to right.
  have running := running_of_evaluate known ran
  rw [evaluate, run_unlessReturned running] at ran
  obtain ⟨values, middle, each, ran⟩ := Stateful.run_bind_ok ran
  cases ran
  exact ⟨values, rfl, of_evaluateItems each⟩

/-- A sample is not longer than what it is taken from. -/
theorem length_sample_le {choices : List Value} {draws : Option Number} {salt : Value}
    (gave : trial.sample choices draws salt = .ok values) : values.length ≤ choices.length := by
  -- A sample is the end of the shuffled choices.
  obtain ⟨count, -, rfl⟩ := Trial.of_sample gave
  rw [List.length_drop, (Trial.shuffle_perm _ _ _ _).length_eq]
  exact Nat.sub_le _ _

/-- A filter keeps no more than there is. -/
theorem length_bernoulliFilter_le {choices : List Value} {p : Number} {salt : Value}
    (gave : trial.bernoulliFilter choices p salt = .ok values) :
    values.length ≤ choices.length := by
  -- A filter goes through the choices in order and keeps some of them.
  rw [Trial.bernoulliFilter_keepFrom] at gave
  obtain ⟨-, -, gave⟩ := check_bind_ok gave
  split at gave
  · cases gave
  · cases gave
    rw [Trial.keepFrom_eq, List.length_map, ← List.length_zipIdx (l := choices) (i := 0)]
    exact List.length_filter_le _ _

/-- Where a written list is demanded, the rest runs with what its items have given. -/
theorem of_listed {items : List Tree} {operation : String} {rest : List Value → Run Value}
    {value : Value}
    (ran : (evaluate (.array items) >>= fun found =>
      liftM (arrayFor operation found) >>= rest).run trial = (.ok value, after)) :
    ∃ choices middle, (rest choices).run middle = (.ok value, after) ∧
      List.Forall₂ Tree.MayGive items choices := by
  -- The list was evaluated and passed the demand, which leaves the trial as it is.
  obtain ⟨found, middle, listed, ran⟩ := Stateful.run_bind_ok ran
  obtain ⟨choices, last, demanded, ran⟩ := Stateful.run_bind_ok ran
  cases (Prod.mk.inj demanded).2
  have shape := of_arrayFor (Prod.mk.inj demanded).1
  subst shape
  obtain ⟨values, same, each⟩ := of_array (by simp) listed
  cases same
  exact ⟨choices, middle, ran, each⟩

/-- A run that ends with a sample of some choices gives no more items than there are choices. -/
theorem length_of_drawn {choices : List Value} {draws : Option Number} {unit : Tree}
    (ran : (do
      let salt ← evaluate unit
      return .list (← (← get).sample choices draws salt) : Run Value).run trial =
        (.ok (.list values), after)) : values.length ≤ choices.length := by
  -- Neither the salt nor the trial matters to the number of items.
  obtain ⟨salt, middle, -, ran⟩ := Stateful.run_bind_ok ran
  obtain ⟨current, _, -, ran⟩ := Stateful.run_bind_ok ran
  obtain ⟨drawn, last, drew, ran⟩ := Stateful.run_bind_ok ran
  cases ran
  exact length_sample_le (Prod.mk.inj drew).1

/-- A list that a run makes is as long as its script says that it may be. -/
theorem Tree.Listing.yields (listing : tree.Listing)
    (ran : (evaluate tree).run trial = (.ok (.list values), after)) :
    tree.Yields values.length := by
  -- The induction is on the script; only a choice hands on a list that one of its parts has made.
  induction listing generalizing trial after values with
  | scalar value =>
    have running := running_of_evaluate (by simp) ran
    rw [evaluate, run_unlessReturned running] at ran
    cases ran
  | literal value =>
    have running := running_of_evaluate (by simp) ran
    rw [evaluate, run_unlessReturned running] at ran
    cases ran
  | array _ _ =>
    obtain ⟨_, same, each⟩ := of_array (by simp) ran
    cases same
    rw [← each.length_eq]
    exact .array _
  | picked _ picks ih =>
    have running := running_of_evaluate (by simp) ran
    cases picks with
    | uniformChoice unit =>
      rw [evaluate, run_unlessReturned running] at ran
      obtain ⟨choices, middle, ran, each⟩ := of_listed ran
      obtain ⟨salt, last, -, ran⟩ := Stateful.run_bind_ok ran
      obtain ⟨item, member, before, after, ran⟩ :=
        Description.exists_of_mem_right each (Trial.uniformChoice_mem (Prod.mk.inj ran).1)
      exact .uniformChoice member (ih item member ran)
    | weightedChoice weights unit =>
      rw [evaluate, run_unlessReturned running] at ran
      obtain ⟨choices, middle, ran, each⟩ := of_listed ran
      obtain ⟨found, _, -, ran⟩ := Stateful.run_bind_ok ran
      obtain ⟨shares, _, -, ran⟩ := Stateful.run_bind_ok ran
      obtain ⟨salt, last, -, ran⟩ := Stateful.run_bind_ok ran
      obtain ⟨item, member, before, after, ran⟩ :=
        Description.exists_of_mem_right each (Trial.weightedChoice_mem (Prod.mk.inj ran).1)
      exact .weightedChoice member (ih item member ran)
    | sample _ unit =>
      rw [evaluate, run_unlessReturned running] at ran
      obtain ⟨choices, middle, ran, each⟩ := of_listed ran
      have fewer : values.length ≤ choices.length := by
        -- Whether a number of draws is given or not, the same rest is run with what it is.
        dsimp only at ran
        split at ran
        · exact length_of_drawn ran
        · obtain ⟨found, _, -, ran⟩ := Stateful.run_bind_ok ran
          obtain ⟨draws, _, -, ran⟩ := Stateful.run_bind_ok ran
          exact length_of_drawn ran
      exact .sample (each.length_eq ▸ fewer)
    | bernoulliFilter probability unit =>
      rw [evaluate, run_unlessReturned running] at ran
      obtain ⟨choices, middle, ran, each⟩ := of_listed ran
      obtain ⟨found, _, -, ran⟩ := Stateful.run_bind_ok ran
      obtain ⟨p, _, -, ran⟩ := Stateful.run_bind_ok ran
      obtain ⟨salt, _, -, ran⟩ := Stateful.run_bind_ok ran
      obtain ⟨current, _, -, ran⟩ := Stateful.run_bind_ok ran
      obtain ⟨kept, last, filtered, ran⟩ := Stateful.run_bind_ok ran
      cases ran
      exact .bernoulliFilter
        (each.length_eq ▸ length_bernoulliFilter_le (Prod.mk.inj filtered).1)

/-- A length is that of a list that the operand gives. -/
theorem of_length {count : Int}
    (ran : (evaluate (.unary .length tree)).run trial = (.ok (.int count), after)) :
    ∃ values middle, (evaluate tree).run trial = (.ok (.list values), middle) ∧
      count = values.length := by
  -- A length is demanded of the operand, so the run of the operand gave a list.
  have running := running_of_evaluate (by simp) ran
  rw [evaluate, run_unlessReturned running] at ran
  · obtain ⟨operand, middle, measured, ran⟩ := Stateful.run_bind_ok ran
    obtain ⟨values, demanded, counted⟩ := check_bind_ok (Prod.mk.inj ran).1
    cases of_arrayFor demanded
    cases counted
    exact ⟨values, middle, measured, rfl⟩
  · simp

end Runs

section Previews

/-- A script whose preview neither looks at variables nor changes them. -/
def Tree.Quiet (tree : Tree) (described : Description) : Prop :=
  ∀ symbols : Store Description, (preview tree).run symbols = (.ok described, symbols)

variable {items : List Tree} {tree unit : Tree}

/-- A list of items with quiet previews has one, with a description for each of them. -/
theorem quiet_array (each : ∀ item ∈ items, ∃ described, item.Quiet described) :
    ∃ described, described.length = items.length ∧
      (Tree.array items).Quiet (.array described) := by
  have listed : ∃ described, described.length = items.length ∧ ∀ symbols : Store Description,
      (previewItems items).run symbols = (.ok described, symbols) := by
    -- The induction is on the items, none of which leaves a trace for the next.
    induction items with
    | nil => exact ⟨[], rfl, fun _ => rfl⟩
    | cons item rest ih =>
      obtain ⟨here, others⟩ := List.forall_mem_cons.mp each
      obtain ⟨first, quiet⟩ := here
      obtain ⟨more, counted, quiet'⟩ := ih others
      refine ⟨first :: more, congrArg Nat.succ counted, fun symbols => ?_⟩
      simp only [previewItems, Stateful.run_bind, quiet symbols, quiet' symbols, Stateful.run_pure]
  obtain ⟨described, counted, quiet⟩ := listed
  refine ⟨described, counted, fun symbols => ?_⟩
  simp only [preview, Stateful.run_bind, quiet symbols, Stateful.run_pure]

/-- What is picked from quiet parts is described by a selection of their descriptions. -/
theorem quiet_picks {described : List Description}
    (quiet : (Tree.array items).Quiet (.array described)) (picks : Tree.Picks items tree) :
    ∃ limit, tree.Quiet (.select limit described) := by
  -- Units, weights and probabilities are not previewed, and a number of draws is a constant.
  cases picks with
  | uniformChoice unit | weightedChoice weights unit =>
    refine ⟨onlyOne described, fun symbols => ?_⟩
    rw [preview, Stateful.run_bind, quiet symbols]
    rfl
  | sample counted unit =>
    cases counted with
    | none =>
      refine ⟨allOf described, fun symbols => ?_⟩
      rw [preview, Stateful.run_bind, quiet symbols]
      rfl
    | scalar count | literal count =>
      refine ⟨.int count, fun symbols => ?_⟩
      rw [preview, Stateful.run_bind, quiet symbols]
      rfl
  | bernoulliFilter probability unit =>
    refine ⟨allOf described, fun symbols => ?_⟩
    rw [preview, Stateful.run_bind, quiet symbols]
    rfl

/-- Scripts made of constants, lists and what is picked from them have quiet previews. -/
theorem Tree.Listing.quiet (listing : tree.Listing) : ∃ described, tree.Quiet described := by
  -- The induction is on the script; whatever is picked is picked from a list.
  induction listing with
  | scalar value => exact ⟨_, fun _ => rfl⟩
  | literal value => exact ⟨_, fun _ => rfl⟩
  | array _ ih =>
    obtain ⟨described, -, quiet⟩ := quiet_array ih
    exact ⟨_, quiet⟩
  | picked _ picks ih =>
    obtain ⟨described, -, quiet⟩ := quiet_array ih
    obtain ⟨limit, quiet⟩ := quiet_picks quiet picks
    exact ⟨_, quiet⟩

/-- The previewed length of a list that is not chosen has bounds around every length that it may
have, and that of a chosen one does if it is not longer than there are choices. -/
theorem length_spans (listing : tree.Listing) {length : Nat} (yields : tree.Yields length) :
    ∃ described low high, (Tree.unary .length tree).Quiet described ∧
      described.Spans low high ∧
        ((low ≤ length ∧ length ≤ high) ↔ ∀ choices ∈ tree.choices?, length ≤ choices.length) := by
  -- A constant has no length; a list has one, and a selection a range from none to all its options.
  cases listing with
  | scalar | literal => cases yields
  | @array items each =>
    cases yields
    obtain ⟨described, counted, quiet⟩ := quiet_array fun item member => (each item member).quiet
    refine ⟨_, _, _, fun symbols => ?_, .number items.length, ?_⟩
    · rw [preview, Stateful.run_bind, quiet symbols, ← counted]
      rfl
    · simp [Tree.choices?]
  | @picked items _ each picks =>
    obtain ⟨described, counted, quiet⟩ := quiet_array fun item member => (each item member).quiet
    obtain ⟨limit, quiet⟩ := quiet_picks quiet picks
    refine ⟨_, _, _, fun symbols => ?_, .range 0 items.length, ?_⟩
    · rw [preview, Stateful.run_bind, quiet symbols, ← counted]
      rfl
    · -- What is drawn is never longer than its choices, so only a chosen list is bounded by them.
      cases picks with
      | uniformChoice | weightedChoice => simp [Tree.choices?]
      | sample | bernoulliFilter =>
        cases yields
        simp [Tree.choices?, *]

/-- Where the length of a list is an integer in a run, it is one that the script may yield, and the
preview gives an integer or an integer range. That covers it always unless the list is a choice
itself, and else exactly if the chosen list is not longer than there are choices. -/
theorem length_covered_iff {trial after : Trial} {count : Int} (listing : tree.Listing)
    (ran : (evaluate (.unary .length tree)).run trial = (.ok (.int count), after))
    (symbols : Store Description) :
    ∃ length : Nat, count = length ∧ tree.Yields length ∧ ∃ described low high,
      (preview (.unary .length tree)).run symbols = (.ok described, symbols) ∧
        described.Spans low high ∧
          ((low ≤ count ∧ count ≤ high) ↔
            ∀ choices ∈ tree.choices?, length ≤ choices.length) := by
  obtain ⟨values, middle, listed, rfl⟩ := of_length ran
  have yields := listing.yields listed
  obtain ⟨described, low, high, quiet, spans, covers⟩ := length_spans listing yields
  exact ⟨values.length, rfl, yields, described, low, high, quiet symbols, spans, covers⟩

/-- A list of three that is the only choice is longer than the preview says. -/
theorem length_covered_iff_chosen :
    let number (n : Int) := Tree.scalar (.num (.int n))
    let triple := Tree.array [number 1, number 2, number 3]
    let chosen := Tree.uniformChoice (.array [triple]) (number 1)
    let trial := Trial.start "exp" .default (.ofBase .empty)
    chosen.Listing ∧
      (evaluate (.unary .length chosen)).run trial = (.ok (.int 3), trial) ∧
      ∀ symbols : Store Description, ∃ described low high,
        (preview (.unary .length chosen)).run symbols = (.ok described, symbols) ∧
          described.Spans low high ∧ ¬ (low ≤ 3 ∧ 3 ≤ high) := by
  intro number triple chosen trial
  have running : trial.returned = false := rfl
  have listing : chosen.Listing := by
    refine .picked (fun item member => ?_) (.uniformChoice _)
    cases List.mem_singleton.mp member
    refine .array fun item member => ?_
    simp only [List.mem_cons, List.not_mem_nil, or_false] at member
    rcases member with rfl | rfl | rfl <;> exact .scalar _
  have ran : (evaluate (.unary .length chosen)).run trial = (.ok (.int 3), trial) := by
    -- The only choice is taken whatever is drawn for it.
    simp [chosen, triple, number, evaluate, evaluateItems, unlessReturned, Stateful.run_bind,
      running, arrayFor, Value.items?, Trial.uniformChoice_below, Trial.below, Nat.mod_one,
      UnaryOp.apply]
    rfl
  refine ⟨listing, ran, fun symbols => ?_⟩
  obtain ⟨length, counted, -, described, low, high, quiet, spans, covers⟩ :=
    length_covered_iff listing ran symbols
  refine ⟨described, low, high, quiet, spans, fun within => ?_⟩
  have bounded : length ≤ [triple].length := covers.mp within [triple] rfl
  simp only [List.length_singleton] at bounded
  omega

end Previews
end TrialScript

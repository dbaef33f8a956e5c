import TrialScript.Proofs.Trial.Draws
import TrialScript.Value.Arithmetic

/-! Kinds of faults: what a check can fail with, from arithmetic up to draws. -/

namespace TrialScript

variable {α β : Type}

/-- Every fault that a check can fail with is of one of some kinds. -/
def FailsOnly (kinds : List FaultKind) (result : Except Fault α) : Prop :=
  ∀ fault, result = .error fault → fault.kind ∈ kinds

namespace FailsOnly

variable {kinds wider : List FaultKind} {result : Except Fault α}

/-- A result is no fault. -/
theorem ok (found : α) : FailsOnly kinds (.ok found) := by
  rintro fault ⟨⟩

/-- A fault of one of the kinds. -/
theorem error {fault : Fault} (member : fault.kind ∈ kinds) :
    FailsOnly kinds (.error fault : Except Fault α) := by
  rintro _ ⟨⟩
  exact member

/-- Two checks in a row fail as the first does, or as the second does with what the first found. -/
theorem bind_of_ok {rest : α → Except Fault β} (first : FailsOnly kinds result)
    (next : ∀ found, result = .ok found → FailsOnly kinds (rest found)) :
    FailsOnly kinds (result >>= rest) := by
  -- The first check fails as a whole, or hands over what it found.
  cases result with
  | ok found => exact next found rfl
  | error failure => exact error (first failure rfl)

/-- Two checks in a row fail as one of them does. -/
theorem bind {rest : α → Except Fault β} (first : FailsOnly kinds result)
    (next : ∀ found, FailsOnly kinds (rest found)) : FailsOnly kinds (result >>= rest) :=
  first.bind_of_ok fun found _ => next found

/-- What is made of a result adds no fault. -/
theorem map (form : α → β) (first : FailsOnly kinds result) :
    FailsOnly kinds (form <$> result) := by
  -- A fault stays the fault that it is.
  cases result with
  | ok found => exact ok (form found)
  | error failure => exact error (first failure rfl)

/-- More kinds allow as much. -/
theorem mono (first : FailsOnly kinds result) (subset : kinds ⊆ wider) : FailsOnly wider result :=
  fun fault failed => subset (first fault failed)

/-- Checks of all items fail as one of them does. -/
theorem mapM {items : List β} {check : β → Except Fault α}
    (each : ∀ item ∈ items, FailsOnly kinds (check item)) : FailsOnly kinds (items.mapM check) := by
  -- The induction is on the items, which are checked in order.
  induction items with
  | nil => exact ok []
  | cons item rest ih =>
    obtain ⟨here, others⟩ := List.forall_mem_cons.mp each
    rw [List.mapM_cons]
    exact bind here fun _ => bind (ih others) fun _ => ok _

/-- A fold fails as one of its steps does. -/
theorem foldlM {items : List β} {step : α → β → Except Fault α}
    (each : ∀ total item, FailsOnly kinds (step total item)) (start : α) :
    FailsOnly kinds (items.foldlM step start) := by
  -- The induction is on the items, from any start.
  induction items generalizing start with
  | nil => exact ok start
  | cons item rest ih =>
    rw [List.foldlM_cons]
    exact bind (each start item) fun total => ih total

/-- A check behind a guard fails as the guard or the check does. -/
theorem guard {condition : Prop} [Decidable condition] {failure : Fault}
    (member : failure.kind ∈ kinds) (next : FailsOnly kinds result) :
    FailsOnly kinds (if condition then throw failure else result) := by
  -- The guard decides which of the two it is.
  split
  · exact error member
  · exact next

end FailsOnly

/-- The faults of arithmetic: a number that is too large, or a remainder that is not defined. -/
def numericFaults : List FaultKind := [.overflow, .undefinedValue]

namespace FailsOnly

section Numbers

variable {left right n : Number}

/-- Only a number that is too large has no binary64 number near it. -/
theorem toFloat : FailsOnly numericFaults n.toFloat := by
  -- The rounded integer is refused exactly where it is infinite.
  unfold Number.toFloat
  split
  · exact .ok _
  · dsimp only
    split
    · exact .error (by decide)
    · exact .ok _

/-- Asking whether a number is undefined can only fail in its conversion. -/
theorem undefined : FailsOnly numericFaults n.undefined :=
  .bind toFloat fun _ => .ok _

/-- Combining two numbers can only fail in a conversion. -/
theorem combine {exactly : Int → Int → Int} {rounded : Binary64 → Binary64 → Binary64} :
    FailsOnly numericFaults (Number.combine exactly rounded left right) := by
  -- Integers stay exact, and the numbers of any other pair are converted first.
  unfold Number.combine
  split
  · exact .ok _
  · exact .bind toFloat fun _ => .bind toFloat fun _ => .ok _

/-- A quotient can only fail in a conversion, or by being too large. -/
theorem divide : FailsOnly numericFaults (left.divide right) := by
  -- Over zero only the signs are asked for, and two integers may have too large a quotient.
  rw [Number.divide_eq]
  split
  · refine .bind undefined fun _ => ?_
    split
    · exact .ok _
    · exact .bind toFloat fun _ => .bind toFloat fun _ => .ok _
  · split
    · split
      · exact .error (by decide)
      · exact .ok _
    · exact .bind toFloat fun _ => .bind toFloat fun _ => .ok _

/-- A remainder can only fail in a conversion, or over an infinite dividend. -/
theorem remainder : FailsOnly numericFaults (left.remainder right) := by
  -- Beyond the conversions only an infinite dividend has no remainder.
  rw [Number.remainder_eq]
  split
  · exact .ok _
  · split
    · exact .ok _
    · refine .bind toFloat fun _ => .bind toFloat fun _ => ?_
      dsimp only
      split
      · exact .bind (.error (by decide)) fun _ => .ok _
      · exact .ok _

/-- Reducing a count by a width that is not zero is arithmetic. -/
theorem reduce {count : Nat} (some : n.isZero = false) :
    FailsOnly numericFaults (Number.reduce count n) := by
  -- A float width that is not zero stays so, and an integer one is not converted.
  cases n with
  | int width =>
    rw [Number.reduce_int (by simpa [Number.isZero] using some)]
    exact .ok _
  | float width =>
    refine .bind_of_ok toFloat fun counted converts => ?_
    have away : width.isZero = false := some
    simp only [away]
    exact .ok _

/-- Rounding can only fail in a conversion. -/
theorem roundHalfAway : FailsOnly numericFaults n.roundHalfAway := by
  cases n with
  | int value => exact .bind toFloat fun _ => .ok _
  | float value => exact .ok _

/-- The truth of a number can only fail in its conversion. -/
theorem truthy : FailsOnly numericFaults n.truthy := by
  unfold Number.truthy
  split
  · exact .ok _
  · exact .bind undefined fun _ => .ok _

/-- Every function that scripts calculate with has only the faults of arithmetic. -/
theorem arithmetic {function : Arithmetic} :
    FailsOnly numericFaults (function.apply left right) := by
  -- Choosing one of two numbers cannot fail; everything else is one of the four above.
  cases function with
  | add | subtract | multiply => exact combine
  | divide => exact divide
  | remainder => exact remainder
  | least | greatest => exact .ok _

end Numbers
end FailsOnly

/-- The faults of running a script: operands of a wrong kind or range, and those of arithmetic. -/
def runFaults : List FaultKind := [.typeMismatch, .invalidArgument, .overflow, .undefinedValue]

namespace FailsOnly

variable {result : Except Fault α}

/-- The faults of arithmetic are among those of running a script. -/
theorem numeric (first : FailsOnly numericFaults result) : FailsOnly runFaults result :=
  first.mono (by decide)

section Draws

variable {trial : Trial} {choices : List α} {salt : Value} {low high p : Number}

/-- An integer is drawn with the faults of a run only. -/
theorem integerBetween : FailsOnly runFaults (trial.integerBetween low high salt) := by
  -- Behind the check of the bounds there is only arithmetic, and the width is not zero.
  unfold Trial.integerBetween
  split
  · exact .error (by simp [Fault.kind, runFaults])
  · next ordered =>
    rw [Bool.not_eq_true] at ordered
    refine numeric ?_
    refine .bind_of_ok combine fun span spans => .bind_of_ok combine fun width widens => ?_
    exact .bind (reduce (Number.isZero_width ordered spans widens)) fun _ => combine

/-- Every salt has a share, so drawing between two bounds is arithmetic. -/
theorem floatBetween : FailsOnly runFaults (trial.floatBetween low high salt) := by
  rw [Trial.floatBetween_unit]
  exact numeric <| .bind combine fun _ => .bind combine fun _ => combine

/-- A position that is drawn is the place of a choice, if there is any choice. -/
theorem uniformChoice : FailsOnly runFaults (trial.uniformChoice choices salt) := by
  rw [Trial.uniformChoice_below]
  split
  · exact .ok _
  · exact .error (by decide)

/-- With a total to take a share of, finding the first choice that reaches it is arithmetic. -/
theorem firstReaching {totals : List Binary64} (some : totals ≠ []) :
    FailsOnly runFaults (trial.firstReaching? choices totals salt) := by
  -- Only without any total there would be none to take a share of.
  cases ends : totals.getLast? with
  | none => exact absurd (List.getLast?_eq_none_iff.mp ends) some
  | some last =>
    rw [Trial.firstReaching?_last ends]
    exact .bind floatBetween fun _ => .ok _

/-- Weights are refused where there is no choice, or another number of choices than of weights. -/
theorem admitWeights {weights : List Number} :
    FailsOnly runFaults (Trial.admitWeights choices weights) := by
  -- Both refusals name the choices or the weights.
  unfold Trial.admitWeights
  split
  · exact .error (by decide)
  · split
    · exact .error (by simp [Fault.kind, runFaults])
    · exact .ok _

/-- A weighted choice has the faults of a run only. -/
theorem weightedChoice {weights : List Number} :
    FailsOnly runFaults (trial.weightedChoice choices weights salt) := by
  -- Admitted weights are as many as the choices, so there is a last total and a last choice.
  refine .bind_of_ok admitWeights fun _ admitted => ?_
  obtain ⟨present, alike⟩ := Trial.of_admitWeights admitted
  refine .bind_of_ok (.mapM fun weight _ => numeric toFloat) fun rounded converted => ?_
  have counted := (length_of_mapM_ok converted).trans alike
  refine .bind (firstReaching ?_) fun reached => ?_
  · rw [← List.length_pos_iff, Trial.length_totals, counted]
    exact List.length_pos_iff.mpr present
  · cases reached with
    | some choice => exact .ok _
    | none =>
      -- Where nothing reaches the share there is still a last choice.
      dsimp only
      rw [elementAt_last]
      split
      · exact .ok _
      · next absent => exact absurd (List.getLast?_eq_none_iff.mp absent) present

/-- The number of draws has the faults of a run only. -/
theorem drawCount {size : Nat} {draws : Option Number} :
    FailsOnly runFaults (Trial.drawCount size draws) := by
  -- Asking whether the number is defined may overflow; behind that only NaN is refused.
  cases draws with
  | none => exact .ok _
  | some draws =>
    refine .bind (numeric undefined) fun _ => ?_
    dsimp only
    split
    · exact .bind (.error (by decide)) fun _ => by split <;> exact .ok _
    · split <;> exact .ok _

/-- Only counting the draws can fail, as no exchange leaves the list. -/
theorem sample {draws : Option Number} :
    FailsOnly runFaults (trial.sample choices draws salt) := by
  rw [Trial.sample_shuffle]
  exact .bind drawCount fun _ => .ok _

/-- A probability is refused as an invalid argument. -/
theorem admitProbability : FailsOnly runFaults (Trial.admitProbability p) := by
  unfold Trial.admitProbability
  split
  · exact .ok _
  · exact .error (by simp [Fault.kind, runFaults])

/-- Behind the checks of the probability and the choices every draw has an answer. -/
theorem bernoulliFilter : FailsOnly runFaults (trial.bernoulliFilter choices p salt) := by
  -- Behind the probability only an empty list of choices is refused.
  rw [Trial.bernoulliFilter_keepFrom]
  refine .bind admitProbability fun _ => ?_
  dsimp only
  split
  · exact .bind (.error (by decide)) fun _ => .ok _
  · exact .ok _

/-- Behind the check of the probability the draw has an answer. -/
theorem bernoulliTrial : FailsOnly runFaults (trial.bernoulliTrial p salt) := by
  rw [Trial.bernoulliTrial_happens]
  exact .bind admitProbability fun _ => .ok _

end Draws
end FailsOnly
end TrialScript

import Mathlib.Data.List.Forall2
import TrialScript.Proofs.Trial.Draws
import TrialScript.Trial.Request

/-! Choices with whole weights: the totals are exact, and only the hash zero can reach a weight of zero. -/

namespace TrialScript

namespace Request

/-- Numbers are no lists, so a list of them has no deeper level. -/
theorem commonLengths?_numbers :
    ∀ numbers : List Number, commonLengths? (numbers.map .num) = some []
  | [] => rfl
  | [_] => rfl
  | number :: next :: rest => by
    have alike := commonLengths?_numbers (next :: rest)
    rw [List.map_cons] at alike
    rw [List.map_cons, List.map_cons, commonLengths?, alike]
    · rfl
    · exact List.cons_ne_nil _ _

/-- Numbers are weights as they are. -/
theorem weights_numbers (numbers : List Number) :
    weights (.list (numbers.map .num)) = numbers.mapM Number.toFloat := by
  -- Numbers have no items, so flattening leaves the list as it is.
  have flat : Salt.flattenItems (numbers.map .num) = numbers.map .num := by
    induction numbers with
    | nil => rfl
    | cons number rest ih =>
      rw [List.map_cons, Salt.flattenItems, ih]
      rfl
  rw [weights, lengths?, commonLengths?_numbers, Salt.flatten, flat, List.mapM_map]
  rfl

/-- With lists of choices and of numbers a request is the operation that scripts use. -/
theorem answer_weightedChoice (trial : Trial) (choices : List Value) (numbers : List Number)
    (salt : Value) :
    (Request.weightedChoice (.list choices) (.list (numbers.map .num)) salt).answer trial =
      trial.weightedChoice choices numbers salt := by
  -- Weights are counted before they are read as numbers, and reading keeps their count.
  rw [answer, chooseWeighted, Trial.weightedChoice, weights_numbers]
  cases choices with
  | nil => rfl
  | cons choice rest =>
    have admitted : Trial.admitWeights (choice :: rest) (numbers.map Value.num) =
        Trial.admitWeights (choice :: rest) numbers := by
      rw [Trial.admitWeights, List.length_map, Trial.admitWeights]
    show (do
      Trial.admitWeights (choice :: rest) (numbers.map Value.num)
      _) = _
    rw [admitted]
    refine bind_congr fun _ => bind_congr fun converted => bind_congr fun reached => ?_
    cases reached <;> rfl

end Request

namespace Binary64

variable {x y : Binary64} {whole : Nat}

/-- Adding to zero changes no units. -/
theorem zero_add_units (finite : x.isFinite = true) :
    ((ofInt 0).add x).isFinite = true ∧ ((ofInt 0).add x).units = x.units := by
  -- Zero has no units, so the sum is the number, rounded to itself.
  have nothing : ofInt 0 = zero false := by
    rw [ofInt, Int.zero_mul]
    rfl
  cases x with
  | nan | infinite => cases finite
  | finite negative significand exponent canonical =>
    have none : (Binary64.finite false 0 0 (by decide)).units = 0 := rfl
    rw [nothing, zero, add, none, Int.zero_add]
    exact ofUnits_units _ _

/-- The opposite of zero is zero. -/
theorem Counts.neg_zero (counted : x.Counts 0) : x.neg.Counts 0 := by
  -- A finite number keeps that when its sign is turned, and no units turn into none.
  refine ⟨?_, ?_⟩
  · cases x with
    | nan | infinite => cases counted.1
    | finite => rfl
  · rw [units_neg, counted.2, Int.natCast_zero, Int.zero_mul, Int.neg_zero]

/-- A positive whole number has no sign, so its units are its distance from zero. -/
theorem Counts.positive (counted : x.Counts whole) (some : 0 < whole) :
    x.isNegative = false ∧ x.magnitude = whole * unitsPerOne := by
  -- With a sign the units would be below zero, where a positive number is not.
  have units := counted.2
  have total : (0 : Int) < whole * unitsPerOne := by
    have positive := unitsPerOne_pos
    exact Int.mul_pos (by omega) (by omega)
  unfold Binary64.units at units
  cases sign : x.isNegative with
  | true =>
    rw [sign, if_pos rfl] at units
    omega
  | false =>
    rw [sign, if_neg Bool.false_ne_true] at units
    exact ⟨rfl, by exact_mod_cast units⟩

end Binary64

namespace Trial

variable {α : Type} {trial : Trial} {salt : Value}

/-- A share of a positive whole number is at most that number, and is zero for the hash zero alone. -/
theorem mul_unit {y : Binary64} {whole : Nat} (counted : y.Counts whole) (some : 0 < whole) :
    ((trial.unit salt).mul y).isFinite = true ∧ 0 ≤ ((trial.unit salt).mul y).units ∧
      ((trial.unit salt).mul y).units ≤ y.units ∧
      (0 < ((trial.unit salt).mul y).units ↔ 0 < trial.hash salt) := by
  obtain ⟨sign, distance⟩ := counted.positive some
  have share := trial.magnitude_unit_le salt
  have one := Binary64.unitsPerOne_pos
  rw [Binary64.mul_of_isFinite (trial.isFinite_unit salt) counted.1, sign,
    trial.isNegative_unit salt, Bool.xor_self]
  -- The share of the units is at most all of them.
  have most : (trial.unit salt).magnitude * y.magnitude ≤ y.magnitude * Binary64.unitsPerOne := by
    rw [Nat.mul_comm]
    exact Nat.mul_le_mul_left _ share
  have finite : (Binary64.round false ((trial.unit salt).magnitude * y.magnitude)
      Binary64.unitsPerOne).isFinite = true :=
    Binary64.isFinite_round one
      (Nat.lt_of_le_of_lt most (Nat.mul_lt_mul_of_pos_right y.magnitude_lt one))
  have rounded := Binary64.magnitude_round_le one most finite
  rw [Binary64.units_eq_magnitude (Binary64.isNegative_round ..), Binary64.units_eq_magnitude sign,
    ← magnitude_unit_pos]
  refine ⟨finite, by omega, by omega, ?_⟩
  constructor
  · intro positive
    by_contra none
    rw [Nat.eq_zero_of_not_pos none, Nat.zero_mul] at finite positive
    have nothing := Binary64.magnitude_round_zero one finite
    omega
  · intro positive
    -- The smallest share of a whole number is no less than one unit.
    have least : 1 * Binary64.unitsPerOne ≤ (trial.unit salt).magnitude * y.magnitude := by
      rw [distance]
      exact Nat.mul_le_mul positive (Nat.le_mul_of_pos_left _ some)
    rw [Nat.one_mul] at least
    have reached := Binary64.magnitude_round_pos one least finite
    omega

/-- A number is drawn between a bounded integer and a binary64 number in binary64. -/
theorem floatBetween_eq {low : Int} {high : Binary64}
    (bounded : (Binary64.ofInt low).isInfinite = false) :
    trial.floatBetween (.int low) (.float high) salt = .ok (.float
      ((Binary64.ofInt low).add ((trial.unit salt).mul (high.sub (.ofInt low))))) := by
  simp only [floatBetween_unit, Number.sub, Number.mul, Number.add, Number.combine, Number.toFloat,
    bounded, Bool.false_eq_true, if_false, bind, Except.bind, pure, Except.pure]

/-- The target drawn below a positive whole number is at most it, and is zero for the hash zero alone. -/
theorem floatBetween_zero {last : Binary64} {whole : Nat} (counted : last.Counts whole)
    (some : 0 < whole) (small : whole < 2 ^ 53) : ∃ target : Binary64,
      trial.floatBetween (.int 0) (.float last) salt = .ok (.float target) ∧
      target.isFinite = true ∧ 0 ≤ target.units ∧ target.units ≤ last.units ∧
      (0 < target.units ↔ 0 < trial.hash salt) := by
  have nothing : (Binary64.ofInt 0).Counts 0 := Binary64.counts_ofInt (by decide)
  have bounded := (Binary64.isFinite_iff.mp nothing.1).2
  -- Nothing is lost where zero is taken from a whole number.
  have width : (last.sub (.ofInt 0)).Counts (whole + 0) := by
    rw [Binary64.sub]
    exact counted.add nothing.neg_zero small
  rw [Nat.add_zero] at width
  obtain ⟨finite, nonneg, within, positive⟩ := @mul_unit trial salt _ _ width some
  obtain ⟨finiteSum, sum⟩ := Binary64.zero_add_units finite
  have same : (last.sub (.ofInt 0)).units = last.units := width.2.trans counted.2.symm
  rw [same] at within
  refine ⟨_, floatBetween_eq bounded, finiteSum, ?_⟩
  rw [sum]
  exact ⟨nonneg, within, positive⟩

/-- Totals that count the running sums of whole weights, from a sum so far on. -/
inductive Adds : Nat → List Binary64 → List Nat → Prop where
  | nil (sum : Nat) : Adds sum [] []
  | cons {sum count : Nat} {total : Binary64} {totals : List Binary64} {counts : List Nat}
      (counted : total.Counts (sum + count)) (rest : Adds (sum + count) totals counts) :
      Adds sum (total :: totals) (count :: counts)

/-- Whole weights are added up exactly from a whole number on, as long as binary64 holds the sum. -/
theorem adds_totalsFrom {weights : List Binary64} {counts : List Nat}
    (each : List.Forall₂ Binary64.Counts weights counts) {total : Binary64} {sum : Nat}
    (counted : total.Counts sum) (small : sum + counts.sum < 2 ^ 53) :
    Adds sum (totalsFrom total weights) counts := by
  -- The induction is on the weights, each of which adds to the total so far.
  induction each generalizing total sum with
  | nil => exact .nil sum
  | cons here _ ih =>
    rw [List.sum_cons] at small
    have next := counted.add here (by omega)
    exact .cons next (ih next (by omega))

/-- Whole weights are added up exactly, as long as binary64 holds their sum. -/
theorem adds_totals {weights : List Binary64} {counts : List Nat}
    (each : List.Forall₂ Binary64.Counts weights counts) (small : counts.sum < 2 ^ 53) :
    Adds 0 (totals weights) counts := by
  -- The first weight is the first total as it is.
  cases each with
  | nil => exact .nil 0
  | @cons weight count weights counts here rest =>
    rw [List.sum_cons] at small
    have first : weight.Counts (0 + count) := by rwa [Nat.zero_add]
    exact .cons first (adds_totalsFrom rest first (by omega))

/-- Whether the total that stands with a choice reaches a target. -/
def reaches (target : Number) (choice : α × Binary64) : Bool := target.atMost (.float choice.2)

namespace Adds

variable {sum : Nat} {totals : List Binary64} {counts : List Nat}

/-- The last total counts the sum of all weights. -/
theorem getLast? (adds : Adds sum totals counts) (some : counts ≠ []) :
    ∃ last, totals.getLast? = .some last ∧ last.Counts (sum + counts.sum) := by
  -- The induction is on the totals, each of which passes its sum on to the next one.
  induction adds with
  | nil => exact absurd rfl some
  | @cons sum count total totals counts counted rest ih =>
    rw [List.sum_cons, ← Nat.add_assoc]
    cases rest with
    | nil => exact ⟨total, rfl, counted⟩
    | cons counted' rest' =>
      -- With more weights behind it, a total is not the last one.
      obtain ⟨last, found, counts⟩ := ih (List.cons_ne_nil _ _)
      exact ⟨last, by rw [List.getLast?_cons_cons, found], counts⟩

/-- A target above the sum so far is first reached by a total to which a positive weight adds. -/
theorem find_positive (adds : Adds sum totals counts) {choices : List α}
    (each : counts.length = choices.length) {target : Binary64} (finite : target.isFinite = true)
    (above : sum * Binary64.unitsPerOne < target.units)
    (within : target.units ≤ (sum + counts.sum : Nat) * Binary64.unitsPerOne) :
    ∃ (position : Nat) (choice : α) (count : Nat), choices[position]? = some choice ∧
      counts[position]? = some count ∧ 0 < count ∧
      ((choices.zip totals).find? (reaches (.float target))).map Prod.fst = some choice := by
  -- The induction is on the totals: the first one reaches the target, or the sum is still below it.
  induction adds generalizing choices with
  | nil =>
    simp only [List.sum_nil, Nat.add_zero] at within
    omega
  | @cons sum count total totals counts counted rest ih =>
    obtain _ | ⟨choice, choices⟩ := choices
    · cases each
    rw [List.zip_cons_cons]
    have order := Binary64.atMost_iff_units finite counted.1
    rw [counted.2] at order
    by_cases reached : target.units ≤ (sum + count : Nat) * Binary64.unitsPerOne
    · -- A weight of zero would leave the total where the sum was, below the target.
      have some : 0 < count := by
        by_contra none
        obtain rfl : count = 0 := by omega
        rw [Nat.add_zero] at reached
        omega
      refine ⟨0, choice, count, rfl, rfl, some, ?_⟩
      have here : reaches (.float target) (choice, total) = true := order.mpr reached
      rw [List.find?_cons_of_pos here]
      rfl
    · rw [List.sum_cons, ← Nat.add_assoc] at within
      obtain ⟨position, later, weight, found, weighed, some, first⟩ :=
        ih (by simpa using each) (by omega) within
      refine ⟨position + 1, later, weight, found, weighed, some, ?_⟩
      have below : ¬ reaches (.float target) (choice, total) = true :=
        fun found => reached (order.mp found)
      rwa [List.find?_cons_of_neg below]

/-- A target of zero is reached by the first total. -/
theorem find_first (adds : Adds sum totals counts) {choice : α} {choices : List α}
    (each : counts.length = choices.length + 1) {target : Binary64}
    (finite : target.isFinite = true) (zero : target.units = 0) :
    (((choice :: choices).zip totals).find? (reaches (.float target))).map Prod.fst =
      some choice := by
  -- A total counts whole ones, so it is not below zero.
  cases adds with
  | nil => cases each
  | @cons sum count total totals counts counted rest =>
    have reached : reaches (.float target) (choice, total) = true := by
      rw [reaches, Binary64.atMost_iff_units finite counted.1, counted.2, zero]
      exact Int.mul_nonneg (Int.natCast_nonneg _) (Int.natCast_nonneg _)
    rw [List.zip_cons_cons, List.find?_cons_of_pos reached]
    rfl

end Adds

/-- Weights that equal whole numbers are converted to these, as long as binary64 holds their sum. -/
theorem mapM_toFloat_whole {weights : List Number} {counts : List Nat}
    (whole : List.Forall₂ (fun weight count => weight.equals (.int (count : Nat)) = true)
      weights counts) (small : counts.sum < 2 ^ 53) :
    ∃ converted, weights.mapM Number.toFloat = .ok converted ∧
      List.Forall₂ Binary64.Counts converted counts := by
  -- No weight is larger than the sum of all of them.
  induction whole with
  | nil => exact ⟨[], rfl, .nil⟩
  | @cons weight count weights counts here _ ih =>
    rw [List.sum_cons] at small
    obtain ⟨x, converts, counted⟩ := Number.counts_of_equals here (by omega)
    obtain ⟨rest, converted, each⟩ := ih (by omega)
    refine ⟨x :: rest, ?_, .cons counted each⟩
    rw [List.mapM_cons, converts]
    show (do return x :: (← weights.mapM Number.toFloat)) = _
    rw [converted]
    rfl

/-- The first choice to reach is the one whose total reaches the target drawn below the last total. -/
theorem firstReaching?_eq {choices : List α} {totals : List Binary64} {last target : Binary64}
    (found : totals.getLast? = some last)
    (drawn : trial.floatBetween (.int 0) (.float last) salt = .ok (.float target)) :
    trial.firstReaching? choices totals salt =
      .ok (((choices.zip totals).find? (reaches (.float target))).map Prod.fst) := by
  rw [firstReaching?_last found, drawn]
  rfl

/-- A choice is made of the first total to reach the target, if one does. -/
theorem weightedChoice_eq {choices : List α} {weights : List Number} {converted : List Binary64}
    {choice : α} (admitted : admitWeights choices weights = .ok ())
    (converts : weights.mapM Number.toFloat = .ok converted)
    (reached : trial.firstReaching? choices (totals converted) salt = .ok (some choice)) :
    trial.weightedChoice choices weights salt = .ok choice := by
  simp only [weightedChoice, admitted, converts, reached, bind, Except.bind]
  rfl

/-- Some choices with as many weights are admitted. -/
theorem admitWeights_eq {β : Type} {choices : List α} {weights : List β} (some : choices ≠ [])
    (each : weights.length = choices.length) : admitWeights choices weights = .ok () := by
  have present : choices.isEmpty = false := by simpa using some
  simp [admitWeights, present, each]

/--
A weighted choice among whole weights is one with a positive weight, except for the hash zero.

The totals are exact as long as binary64 holds their sum, and the target lies above zero for every
other hash, so that a weight of zero never carries a total up to it. For the hash zero, which every
salt of a disabled trial has, the target is zero and the first choice is taken whatever its weight.
-/
theorem weightedChoice_whole (trial : Trial) (salt : Value) {choices : List α}
    {weights : List Number} {counts : List Nat} (each : counts.length = choices.length)
    (whole : List.Forall₂ (fun weight count => weight.equals (.int (count : Nat)) = true)
      weights counts) (positive : 0 < counts.sum) (small : counts.sum < 2 ^ 53) :
    ∃ (position : Nat) (choice : α) (count : Nat),
      trial.weightedChoice choices weights salt = .ok choice ∧
      choices[position]? = some choice ∧ counts[position]? = some count ∧
      (trial.hash salt = 0 → position = 0) ∧ (trial.hash salt ≠ 0 → 0 < count) := by
  obtain ⟨converted, converts, counted⟩ := mapM_toFloat_whole whole small
  have some : counts ≠ [] := by
    intro none
    rw [none] at positive
    cases positive
  have adds := adds_totals counted small
  obtain ⟨last, found, countsLast⟩ := adds.getLast? some
  rw [Nat.zero_add] at countsLast
  obtain ⟨target, drawn, finite, nonneg, within, above⟩ :=
    @floatBetween_zero trial salt _ _ countsLast positive small
  -- As many weights as choices are admitted, and the totals are walked up to the target.
  have present : choices ≠ [] := by
    intro none
    rw [none] at each
    exact some (List.eq_nil_of_length_eq_zero each)
  have admitted := admitWeights_eq present (whole.length_eq.trans each)
  have reaching := @firstReaching?_eq α trial salt choices _ _ _ found drawn
  by_cases nothing : trial.hash salt = 0
  · -- The target is zero, which the first total reaches.
    have zero : target.units = 0 := by omega
    obtain ⟨count, counts, rfl⟩ := List.exists_cons_of_ne_nil some
    obtain ⟨choice, choices, rfl⟩ := List.exists_cons_of_ne_nil present
    have first := @Adds.find_first α _ _ _ adds choice choices each _ finite zero
    rw [first] at reaching
    exact ⟨0, choice, count, weightedChoice_eq admitted converts reaching, rfl, rfl,
      fun _ => rfl, fun other => absurd nothing other⟩
  · -- The target is above the sum of no weights.
    have beyond : (0 : Nat) * Binary64.unitsPerOne < target.units := by
      rw [Int.natCast_zero, Int.zero_mul]
      exact above.mpr (Nat.pos_of_ne_zero nothing)
    rw [countsLast.2, ← Nat.zero_add counts.sum] at within
    obtain ⟨position, choice, count, chosen, weighed, more, first⟩ :=
      adds.find_positive each finite beyond within
    rw [first] at reaching
    exact ⟨position, choice, count, weightedChoice_eq admitted converts reaching, chosen, weighed,
      fun zero => absurd zero nothing, fun _ => more⟩

/-- With one kept digit a salt has the hash zero, for which the choice without weight is taken. -/
theorem weightedChoice_whole_zero :
    let choices : List Value := [.str "never", .str "always"]
    let weights : List Number := [.int 0, .int 1]
    let trial := Trial.start "exp" ⟨".", 1, by decide, by decide⟩ (.ofBase .empty)
    trial.hash (.str "x") = 0 ∧
      (Request.weightedChoice (.list choices) (.list (weights.map .num)) (.str "x")).answer trial =
        .ok (.str "never") ∧
      trial.hash (.str "u413") ≠ 0 ∧
      trial.weightedChoice choices weights (.str "u413") = .ok (.str "always") := by
  -- The weights are whole, so the position is decided by the hash alone.
  intro choices weights trial
  have whole : List.Forall₂ (fun weight count => weight.equals (.int (count : Nat)) = true)
      weights [0, 1] :=
    .cons (by decide +kernel) (.cons (by decide +kernel) .nil)
  have none : trial.hash (.str "x") = 0 := by decide +kernel
  have some : trial.hash (.str "u413") ≠ 0 := by decide +kernel
  obtain ⟨position, choice, count, taken, placed, -, first, -⟩ :=
    @weightedChoice_whole Value trial (.str "x") choices weights _ rfl whole (by decide) (by decide)
  obtain ⟨position', choice', count', taken', placed', weighed, -, more⟩ :=
    @weightedChoice_whole Value trial (.str "u413") choices weights _ rfl whole (by decide)
      (by decide)
  refine ⟨none, ?_, some, ?_⟩
  -- A hash of zero takes the first position, whatever its weight.
  · rw [first none] at placed
    rw [Request.answer_weightedChoice, taken]
    exact congrArg Except.ok (Option.some.inj placed).symm
  · -- Only the second position has a weight.
    obtain rfl : position' = 1 := by
      have weight := more some
      match position', weighed with
      | 0, weighed =>
        obtain rfl := Option.some.inj weighed
        cases weight
      | 1, _ => rfl
      | _ + 2, weighed => cases weighed
    rw [taken']
    exact congrArg Except.ok (Option.some.inj placed').symm

end Trial
end TrialScript

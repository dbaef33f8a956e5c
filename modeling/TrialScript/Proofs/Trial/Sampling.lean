import Mathlib.Data.List.FinRange
import TrialScript.Proofs.Numeric.Defined
import TrialScript.Proofs.Trial.Draws

/-! Samples: how many items they have, from which places, and which items can be among them. -/

namespace TrialScript

namespace Binary64

/-- The whole part of an endless number is read as zero. -/
theorem truncate_infinite (negative : Bool) : (infinite negative).truncate = 0 := by
  have none : (infinite negative).magnitude = 0 := rfl
  unfold truncate
  simp only [none, Int.natCast_zero, Int.zero_ediv, Int.neg_zero, ite_self]

/-- A number that is at least a count has a whole part of that many. -/
theorem le_truncate_of_units {size : Nat} {x : Binary64}
    (reached : (size : Int) * unitsPerOne ≤ x.units) : (size : Int) ≤ x.truncate := by
  have unit := natCast_unitsPerOne_pos
  have nonneg : (0 : Int) ≤ size * unitsPerOne := Int.mul_nonneg (by omega) unit.le
  unfold units at reached
  simp only [truncate]
  by_cases negative : x.isNegative
  · -- A negative sign is that of zero here, which is reached by no other count than that of nothing.
    rw [if_pos negative] at reached
    have none : x.magnitude = 0 := by omega
    have empty : (size : Int) = 0 := by
      have : (size : Int) * unitsPerOne = 0 := by omega
      exact (Int.mul_eq_zero.mp this).resolve_right (by omega)
    rw [none, empty, if_pos negative, Int.natCast_zero, Int.zero_ediv, Int.neg_zero]
  · rw [if_neg negative] at reached ⊢
    exact (Int.le_ediv_iff_mul_le unit).mpr reached

end Binary64

namespace Number

/-- A binary64 number that is at least a count is endless, or has a whole part of that many. -/
theorem le_truncate {size : Nat} {x : Binary64}
    (reached : atMost (.int size) (.float x) = true) :
    x = .infinite false ∨ (size : Int) ≤ x.truncate := by
  obtain ⟨low, high, atSize, atNumber, ordered⟩ := atMost_iff.mp reached
  cases atSize
  cases x with
  | nan => cases atNumber
  | infinite negative =>
    -- The lowest place is below that of every count.
    cases negative with
    | false => exact .inl rfl
    | true =>
      cases atNumber
      rcases ordered with before | same
      · cases before
      · cases same
  | finite negative significand exponent canonical =>
    refine .inr (Binary64.le_truncate_of_units ?_)
    cases atNumber
    rcases ordered with before | same
    · exact Int.le_of_lt (of_decide_eq_true before)
    · exact Int.le_of_eq (Place.point.inj same)

end Number

namespace Trial

variable {α β : Type} {trial : Trial} {salt : Value}

section Exchanges

/-- Exchanging two items only changes their order. -/
theorem swap_perm (items : List α) (i j : Nat) : (swap items i j).Perm items := by
  -- Where one of the positions is outside, nothing is exchanged.
  unfold swap
  split
  · next x y atI atJ =>
    obtain ⟨insideI, rfl⟩ := List.getElem?_eq_some_iff.mp atI
    obtain ⟨insideJ, rfl⟩ := List.getElem?_eq_some_iff.mp atJ
    exact List.set_set_perm insideI insideJ
  · exact .refl items

/-- Exchanging does not look at the items. -/
theorem swap_map (form : α → β) (items : List α) (i j : Nat) :
    swap (items.map form) i j = (swap items i j).map form := by
  -- An exchange that reaches outside changes nothing, before and after the map.
  unfold swap
  simp only [List.getElem?_map]
  cases items[i]? with
  | none => rfl
  | some x =>
    cases items[j]? with
    | none => rfl
    | some y => simp [List.map_set]

section Inside

variable {items : List α} {i j : Nat} (insideI : i < items.length) (insideJ : j < items.length)
include insideI insideJ

/-- Inside the list both items are exchanged. -/
theorem swap_of_inside : swap items i j = (items.set i items[j]).set j items[i] := by
  simp [swap, insideI, insideJ]

/-- The first position gets the item of the second one. -/
theorem getElem?_swap_left : (swap items i j)[i]? = items[j]? := by
  -- The second position was written last: if both are one, nothing moved.
  rw [swap_of_inside insideI insideJ]
  by_cases same : j = i
  · subst same
    simp
  · rw [List.getElem?_set_ne same]
    simp [insideI, insideJ]

/-- The second position gets the item of the first one. -/
theorem getElem?_swap_right : (swap items i j)[j]? = items[i]? := by
  rw [swap_of_inside insideI insideJ]
  simp [insideI, insideJ]

end Inside

/-- Every other position keeps its item. -/
theorem getElem?_swap_of_ne {items : List α} {i j other : Nat} (notFirst : i ≠ other)
    (notSecond : j ≠ other) : (swap items i j)[other]? = items[other]? := by
  -- Both writes of an exchange go to other positions.
  unfold swap
  split
  · rw [List.getElem?_set_ne notSecond, List.getElem?_set_ne notFirst]
  · rfl

/-- Shuffling only changes the order of the items. -/
theorem shuffle_perm (pick : Nat → Nat) (stop position : Nat) (items : List α) :
    (shuffle pick stop position items).Perm items := by
  -- The induction is on the position, and each step exchanges two items.
  induction position generalizing items with
  | zero => exact .refl items
  | succ position ih =>
    rw [shuffle]
    split
    · exact .refl items
    · exact (ih _).trans (swap_perm items _ _)

/-- Shuffling does not look at the items. -/
theorem shuffle_map (form : α → β) (pick : Nat → Nat) (stop position : Nat) (items : List α) :
    shuffle pick stop position (items.map form) =
      (shuffle pick stop position items).map form := by
  -- By induction on the position, for all items: each step exchanges before the shuffle goes on.
  induction position generalizing items with
  | zero => rfl
  | succ position ih =>
    rw [shuffle, shuffle]
    split
    · rfl
    · rw [swap_map, ih]

/-- From the stop on downwards nothing is exchanged. -/
theorem shuffle_of_le {pick : Nat → Nat} {stop position : Nat} (stopped : position ≤ stop)
    (items : List α) : shuffle pick stop position items = items := by
  cases position with
  | zero => rfl
  | succ position => rw [shuffle, if_pos stopped]

end Exchanges

section Drawn

/-- What a sample takes is left of the shuffled choices behind the position where it stops. -/
theorem of_sample {choices drawn : List α} {draws : Option Number}
    (gave : trial.sample choices draws salt = .ok drawn) :
    ∃ count, drawCount choices.length draws = .ok count ∧
      drawn = (shuffle (fun position => trial.below position (.list [salt, .int position]))
        ((choices.length : Int) - count).toNat (choices.length - 1) choices).drop
          ((choices.length : Int) - count).toNat := by
  -- Only the count of the draws can fail; what follows it is a plain result.
  rw [sample_shuffle] at gave
  obtain ⟨count, counted, gave⟩ := check_bind_ok gave
  cases gave
  exact ⟨count, counted, rfl⟩

/--
How many of some items are drawn.

All of them where no number of draws is given or it is endless, and else as many as its whole part
says, toward zero, but not fewer than none and not more than all.
-/
def drawnLength (size : Nat) : Option Number → Nat
  | none => size
  | some (.int count) => min count.toNat size
  | some (.float (.infinite negative)) => if negative then 0 else size
  | some (.float count) => min count.truncate.toNat size

/-- A number of draws is looked at exactly if it is defined and fits into binary64. -/
theorem succeeds_drawCount {size : Nat} {draws : Option Number} :
    Succeeds (drawCount size draws) ↔
      ∀ number, draws = some number → number.Fits ∧ number.isNaN = false := by
  cases draws with
  | none => exact iff_of_true (.ok _) nofun
  | some number =>
    simp only [Option.some.injEq, forall_eq']
    constructor
    · rintro ⟨count, counted⟩
      obtain ⟨undefined, looked, counted⟩ := check_bind_ok counted
      obtain ⟨converted, converts, looked⟩ := check_bind_ok looked
      cases looked
      obtain ⟨fits, -, alike⟩ := Number.converted converts
      refine ⟨fits, alike ▸ Bool.eq_false_iff.mpr fun nan => ?_⟩
      -- The undefined number is refused.
      simp only [nan, if_true] at counted
      cases counted
    · rintro ⟨fits, defined⟩
      obtain ⟨converted, converts, -, -, alike⟩ := fits.toFloat
      have looked : number.undefined = .ok false := by
        simp only [Number.undefined, converts, bind, Except.bind, pure, Except.pure, alike, defined]
      simp only [drawCount, looked]
      cases number with
      | int count => exact .ok _
      | float count => cases count <;> exact .ok _

/-- What is left behind the stop are as many items as are drawn. -/
theorem sub_stop {size : Nat} {draws : Option Number} {count : Int}
    (counted : drawCount size draws = .ok count) :
    size - ((size : Int) - count).toNat = drawnLength size draws := by
  -- The cases are those of the number of draws, of which the undefined one is refused.
  cases draws with
  | none =>
    cases counted
    simp only [drawnLength]
    omega
  | some number =>
    obtain ⟨undefined, looked, counted⟩ := check_bind_ok counted
    cases undefined with
    -- An undefined count is refused, so nothing was counted.
    | true => cases number <;> cases counted
    | false =>
      cases number with
      | int asked =>
        cases counted
        simp only [drawnLength]
        omega
      | float asked =>
        cases asked with
        -- An infinite count asks for all choices or for none.
        | infinite negative =>
          cases counted
          cases negative <;> simp [drawnLength]
        | nan | finite =>
          cases counted
          simp only [drawnLength]
          omega

/-- As many draws as there are items, or more, draw all items. -/
theorem drawnLength_of_all {size : Nat} {draws : Option Number}
    (all : ∀ number, draws = some number → Number.atMost (.int size) number = true) :
    drawnLength size draws = size := by
  cases draws with
  | none => rfl
  | some number =>
    have reached := all number rfl
    cases number with
    | int count =>
      have enough := Number.le_of_int_atMost reached
      simp only [drawnLength]
      omega
    | float count =>
      rcases Number.le_truncate reached with rfl | enough
      · rfl
      · cases count with
        | infinite negative =>
          -- Endlessly few draws are at least as many only where there is nothing to draw.
          rw [Binary64.truncate_infinite] at enough
          have empty : size = 0 := by omega
          simp only [drawnLength, empty, ite_self]
        | nan | finite =>
          simp only [drawnLength]
          omega

end Drawn

/--
What a sample gives: as many items as are drawn, from places of which none is used twice.

A sample is given exactly if the number of draws is defined and fits into binary64. It holds items
of the choices with no item more often than the choices do, and where as many draws are asked for
as there are choices it is a rearrangement of them, whether or not the trial is disabled.
-/
theorem sample_takes_places (trial : Trial) (choices : List α) (draws : Option Number)
    (salt : Value) :
    (Succeeds (trial.sample choices draws salt) ↔
      ∀ number, draws = some number → number.Fits ∧ number.isNaN = false) ∧
    ∀ drawn, trial.sample choices draws salt = .ok drawn →
      drawn.length = drawnLength choices.length draws ∧
      (∃ places : List (Fin choices.length), places.Nodup ∧ drawn = places.map choices.get) ∧
      drawn.Subperm choices ∧
      ((∀ number, draws = some number → Number.atMost (.int choices.length) number = true) →
        drawn.Perm choices) := by
  constructor
  · -- Only counting the draws can fail.
    have counts : Succeeds (drawCount choices.length draws) ↔ _ := succeeds_drawCount
    rw [← counts]
    constructor
    · rintro ⟨drawn, gave⟩
      obtain ⟨count, counted, -⟩ := of_sample gave
      exact ⟨count, counted⟩
    · rintro ⟨count, counted⟩
      rw [sample_shuffle]
      exact Succeeds.bind_iff.mpr ⟨count, counted, .ok _⟩
  intro drawn gave
  obtain ⟨count, counted, rfl⟩ := of_sample gave
  have long := sub_stop counted
  generalize ((choices.length : Int) - count).toNat = stop at long ⊢
  generalize (fun position : Nat => trial.below position (.list [salt, .int position])) = pick
  have shuffled := shuffle_perm pick stop (choices.length - 1) choices
  refine ⟨?_, ?_, ?_, fun all => ?_⟩
  · rw [List.length_drop, shuffled.length_eq, long]
  · -- The places are shuffled as the choices are, and all of them are different.
    refine ⟨(shuffle pick stop (choices.length - 1) (List.finRange choices.length)).drop stop,
      ?_, ?_⟩
    · have distinct := (shuffle_perm pick stop (choices.length - 1)
        (List.finRange choices.length)).nodup_iff.mpr (List.nodup_finRange _)
      exact distinct.sublist (List.drop_sublist _ _)
    · rw [List.map_drop, ← shuffle_map, List.map_get_finRange]
  · exact (List.drop_sublist _ _).subperm.trans shuffled.subperm
  · -- When everything is drawn, nothing is left out before the stop.
    rw [drawnLength_of_all all] at long
    by_cases none : choices = []
    · subst none
      rw [shuffled.eq_nil, List.drop_nil]
    · have some : 0 < choices.length := List.length_pos_iff.mpr none
      have stopped : stop = 0 := by omega
      subst stopped
      exact shuffled

/-- In a disabled trial two and a half draws take two of four choices, and endless ones take all. -/
theorem sample_takes_places_disabled :
    let trial := (Trial.start "exp" .default (.ofBase .empty)).disable
    let choices : List Value := [.str "a", .str "b", .str "c", .str "d"]
    let draws : Number := .float (.ofQuotient 5 2)
    let endless : Number := .float (.infinite false)
    let drawn : List Value := [.str "c", .str "a"]
    let all : List Value := [.str "b", .str "c", .str "d", .str "a"]
    draws.Fits ∧ draws.isNaN = false ∧
      trial.sample choices (some draws) (.str "salt") = .ok drawn ∧
      drawn.length = drawnLength choices.length (some draws) ∧
      (∃ places : List (Fin choices.length), places.Nodup ∧ drawn = places.map choices.get) ∧
      drawn.Subperm choices ∧
      trial.sample choices (some endless) (.str "salt") = .ok all ∧
      (∀ number, some endless = some number →
        Number.atMost (.int choices.length) number = true) ∧
      all.Perm choices := by
  -- Both draws are run, and the theorem is applied to each of them.
  intro trial choices draws endless drawn all
  have gave : trial.sample choices (some draws) (.str "salt") = .ok drawn := by decide +kernel
  have gaveAll : trial.sample choices (some endless) (.str "salt") = .ok all := by decide +kernel
  have enough : ∀ number, some endless = some number →
      Number.atMost (.int choices.length) number = true := by
    rintro number ⟨⟩
    decide +kernel
  obtain ⟨given, takes⟩ := sample_takes_places trial choices (some draws) (.str "salt")
  obtain ⟨fits, defined⟩ := given.mp ⟨drawn, gave⟩ draws rfl
  obtain ⟨long, places, among, -⟩ := takes drawn gave
  obtain ⟨-, takesAll⟩ := sample_takes_places trial choices (some endless) (.str "salt")
  obtain ⟨-, -, -, rearranged⟩ := takesAll all gaveAll
  exact ⟨fits, defined, gave, long, places, among, gaveAll, enough, rearranged enough⟩

section Reach

/-- Draws for the steps of a shuffle: each is a place before the one that it is drawn for. -/
def Earlier (pick : Nat → Nat) : Prop :=
  ∀ position, 0 < position → pick position < position

/-- The items that are drawn when the exchanges are with given places. -/
def drawnBy (pick : Nat → Nat) (count : Nat) (choices : List α) : List α :=
  (shuffle pick (choices.length - count) (choices.length - 1) choices).drop (choices.length - count)

/-- The places that a trial draws for the steps of a shuffle. -/
def picks (trial : Trial) (salt : Value) (position : Nat) : Nat :=
  trial.below position (.list [salt, .int position])

/-- A trial draws earlier places. -/
theorem earlier_picks (trial : Trial) (salt : Value) : Earlier (trial.picks salt) :=
  fun _ some => Nat.mod_lt _ some

/-- A sample consists of the items that the places of the trial lead to, as many as are drawn. -/
theorem sample_of_drawCount {choices : List α} {draws : Option Number} {count : Int}
    (counted : drawCount choices.length draws = .ok count) : trial.sample choices draws salt =
      .ok (drawnBy (trial.picks salt) (drawnLength choices.length draws) choices) := by
  have long := sub_stop counted
  simp only [sample_shuffle, counted, bind, Except.bind, pure, Except.pure, Except.ok.injEq,
    drawnBy, ← long]
  generalize ((choices.length : Int) - count).toNat = stop
  rcases Nat.lt_or_ge choices.length stop with beyond | within
  · -- Fewer draws than none leave nothing, as no draws do.
    have size {stop : Nat} {pick : Nat → Nat} :
        (shuffle pick stop (choices.length - 1) choices).length = choices.length :=
      (shuffle_perm ..).length_eq
    rw [List.drop_eq_nil_of_le (by rw [size]; omega), List.drop_eq_nil_of_le (by rw [size]; omega)]
  · rw [Nat.sub_sub_self within]
    rfl

/-- A sample of a number of choices consists of the items that the places of the trial lead to. -/
theorem sample_eq_drawnBy {choices drawn : List α} {count : Nat}
    (gave : trial.sample choices (some (.int count)) salt = .ok drawn) :
    drawn = drawnBy (trial.picks salt) count choices := by
  obtain ⟨counted, looked, -⟩ := of_sample gave
  rw [sample_of_drawCount looked] at gave
  cases gave
  -- More draws than there are choices stop where as many draws do.
  have stops : choices.length - min count choices.length = choices.length - count := by omega
  simp only [drawnBy, drawnLength, Int.toNat_natCast, stops]

variable {pick : Nat → Nat} (earlier : Earlier pick)
include earlier

/-- Places above the one where a shuffle begins keep their items. -/
theorem getElem?_shuffle_above {stop position above : Nat} (beyond : position < above)
    (items : List α) : (shuffle pick stop position items)[above]? = items[above]? := by
  -- Each step exchanges its own place with an earlier one.
  induction position generalizing items with
  | zero => rfl
  | succ position ih =>
    rw [shuffle]
    split
    · rfl
    · have before := earlier (position + 1) (by omega)
      rw [ih (by omega), getElem?_swap_of_ne (by omega) (by omega)]

/-- The first step of a shuffle settles its own place. -/
theorem getElem?_shuffle_first {stop position : Nat} {items : List α} (above : stop < position)
    (inside : position < items.length) :
    (shuffle pick stop position items)[position]? = items[pick position]? := by
  -- Later steps only touch earlier places, so what the first exchange puts there stays.
  have before := earlier position (by omega)
  obtain ⟨previous, rfl⟩ : ∃ previous, position = previous + 1 := ⟨position - 1, by omega⟩
  rw [shuffle, if_neg (by omega), getElem?_shuffle_above earlier (by omega),
    getElem?_swap_left inside (by omega)]

omit earlier in
/-- Every choice can be drawn where there are two draws or more. -/
theorem reaches_of_two {choices : List α} {count place : Nat} (several : 2 ≤ count)
    (within : count ≤ choices.length) (inside : place < choices.length) :
    ∃ pick, Earlier pick ∧ choices[place] ∈ drawnBy pick count choices := by
  obtain ⟨last, size⟩ : ∃ last, choices.length = last + 1 := ⟨choices.length - 1, by omega⟩
  obtain ⟨stop, stops⟩ : ∃ stop, choices.length - count = stop := ⟨_, rfl⟩
  -- It is enough that the choice ends at a place that is not before the stop.
  have drawn : ∀ pick final, stop ≤ final →
      (shuffle pick stop last choices)[final]? = some choices[place] →
      choices[place] ∈ drawnBy pick count choices := by
    intro pick final behind found
    unfold drawnBy
    rw [stops, size, Nat.add_sub_cancel]
    refine List.mem_of_getElem? (i := final - stop) ?_
    rw [List.getElem?_drop, Nat.add_sub_cancel' behind]
    exact found
  rcases Nat.lt_or_ge place last with before | atLast
  · -- An earlier choice is exchanged into the last place by the first step.
    let pick position := if position = last then place else 0
    have earlier : Earlier pick := by
      intro position some
      show (if position = last then place else 0) < position
      split <;> omega
    refine ⟨pick, earlier, drawn pick last (by omega) ?_⟩
    rw [getElem?_shuffle_first earlier (by omega) (by omega)]
    simp [pick, inside]
  · -- The last choice goes to the stop first, from where the next step may take it up again.
    obtain rfl : place = last := by omega
    let pick position := if stop < position then stop else 0
    have earlier : Earlier pick := by
      intro position some
      show (if stop < position then stop else 0) < position
      split <;> omega
    obtain ⟨next, before⟩ : ∃ next, place = next + 1 := ⟨place - 1, by omega⟩
    have moved : (swap choices place stop)[stop]? = some choices[place] := by
      rw [getElem?_swap_right inside (by omega), List.getElem?_eq_getElem inside]
    have first : shuffle pick stop place choices =
        shuffle pick stop next (swap choices place stop) := by
      subst before
      rw [shuffle, if_neg (by omega)]
      simp only [pick, if_pos (show stop < next + 1 by omega)]
    have long := (swap_perm choices place stop).length_eq
    rcases Nat.lt_or_ge stop next with more | done
    · refine ⟨pick, earlier, drawn pick next (by omega) ?_⟩
      rw [first, getElem?_shuffle_first earlier more (by omega)]
      simp only [pick, if_pos more]
      exact moved
    · refine ⟨pick, earlier, drawn pick stop (Nat.le_refl stop) ?_⟩
      rw [first, shuffle_of_le done]
      exact moved

omit earlier in
/-- A single draw is never exchanged with anything, so it is the last of the choices. -/
theorem drawnBy_one (pick : Nat → Nat) (choices : List α) :
    drawnBy pick 1 choices = choices.drop (choices.length - 1) := by
  unfold drawnBy
  rw [shuffle_of_le (Nat.le_refl _)]

end Reach

/--
Which choices a sample can hold, over all draws that its steps could make.

Every choice can be among two draws or more, but a single draw from several choices is the last of
them, whatever the draws are: the shuffle ends before the place that is drawn is exchanged. What a
trial gives for a salt is always one of these outcomes.
-/
theorem sample_reaches {choices : List α} (distinct : choices.Nodup) {count place : Nat}
    (some : 1 ≤ count) (within : count ≤ choices.length) (inside : place < choices.length) :
    ((∃ pick, Earlier pick ∧ choices[place] ∈ drawnBy pick count choices) ↔
      2 ≤ count ∨ place + 1 = choices.length) ∧
    ∀ (trial : Trial) (salt : Value) (drawn : List α),
      trial.sample choices (.some (.int count)) salt = .ok drawn →
      (∃ pick, Earlier pick ∧ drawn = drawnBy pick count choices) ∧
        (count = 1 → drawn = choices.drop (choices.length - 1)) := by
  refine ⟨⟨?_, ?_⟩, ?_⟩
  · rintro ⟨pick, -, member⟩
    by_cases single : count = 1
    · -- Of different choices only the last one stands at the last place.
      subst single
      rw [drawnBy_one, List.mem_drop_iff_getElem] at member
      obtain ⟨offset, bounded, same⟩ := member
      have places := (distinct.getElem_inj_iff).mp same
      exact .inr (by omega)
    · exact .inl (by omega)
  · intro reachable
    by_cases several : 2 ≤ count
    · exact reaches_of_two several within inside
    · -- A single draw is the last choice under any draws.
      obtain rfl : count = 1 := by omega
      have last : choices.length - 1 = place := by omega
      refine ⟨fun position => 0, fun position some => some, ?_⟩
      rw [drawnBy_one, List.mem_drop_iff_getElem, last]
      exact ⟨0, by omega, by simp⟩
  · intro trial salt drawn gave
    obtain rfl := sample_eq_drawnBy gave
    refine ⟨⟨_, earlier_picks trial salt, rfl⟩, ?_⟩
    rintro rfl
    exact drawnBy_one _ choices

/-- The first of three choices can be among two draws, and a single draw is the third. -/
theorem sample_reaches_single :
    let choices : List Value := [.str "a", .str "b", .str "c"]
    let trial := Trial.start "exp" .default (.ofBase .empty)
    choices.Nodup ∧ (∃ pick, Earlier pick ∧ Value.str "a" ∈ drawnBy pick 2 choices) ∧
      (¬ ∃ pick, Earlier pick ∧ Value.str "a" ∈ drawnBy pick 1 choices) ∧
      trial.sample choices (some (.int 1)) (.str "salt") = .ok [.str "c"] := by
  -- A single draw of three is not several, and the first choice is not the last one.
  intro choices trial
  have distinct : choices.Nodup := by decide
  obtain ⟨two, -⟩ := @sample_reaches Value choices distinct 2 0 (by decide) (by decide) (by decide)
  obtain ⟨single, given⟩ :=
    @sample_reaches Value choices distinct 1 0 (by decide) (by decide) (by decide)
  have gave : ∃ drawn, trial.sample choices (some (.int 1)) (.str "salt") = .ok drawn := by
    have bounded := (sample_takes_places trial choices (some (.int 1)) (.str "salt")).1
    refine bounded.mpr ?_
    rintro number ⟨⟩
    exact ⟨by decide +kernel, rfl⟩
  obtain ⟨drawn, gave⟩ := gave
  have last := (given trial (.str "salt") drawn gave).2 rfl
  refine ⟨distinct, two.mpr (.inl (by decide)), fun reached => ?_, by rw [gave, last]; rfl⟩
  rcases single.mp reached with several | atLast
  · omega
  · exact absurd atLast (by decide)

end Trial
end TrialScript

import TrialScript.Proofs.Position
import TrialScript.Proofs.Trial.Unit

/-! What draws give: integers between their bounds, and choices among what there is to choose from. -/

namespace TrialScript

namespace Trial

variable {α : Type} {trial : Trial} {salt : Value}

/-- A whole number below a positive count. -/
def below (trial : Trial) (count : Nat) (salt : Value) : Nat :=
  trial.hash salt % count

/-- Whether the share of a salt falls under a probability. -/
def happens (trial : Trial) (p : Number) (salt : Value) : Bool :=
  Number.less (.float (trial.unit salt)) p

/-- The items kept with a probability, each by its own share, numbered from a given one on. -/
def keepFrom (trial : Trial) (p : Number) (salt : Value) (index : Nat) : List α → List α
  | [] => []
  | item :: rest =>
    if trial.happens p (.list [salt, .int index]) then
      item :: keepFrom trial p salt (index + 1) rest
    else keepFrom trial p salt (index + 1) rest

/-- The list with the items at two places exchanged. -/
def swap (items : List α) (i j : Nat) : List α :=
  match items[i]?, items[j]? with
  | some x, some y => (items.set i y).set j x
  | _, _ => items

/-- Exchanges the items at every place above a stop with ones at earlier places. -/
def shuffle (pick : Nat → Nat) (stop : Nat) : Nat → List α → List α
  | 0, items => items
  | position + 1, items =>
    if position + 1 ≤ stop then items
    else shuffle pick stop position (swap items (position + 1) (pick (position + 1)))

/-- Between integers in order the draw is as far from the lower one as the hash is from a full width. -/
theorem integerBetween_int {low high : Int} (ordered : low ≤ high) :
    trial.integerBetween (.int low) (.int high) salt =
      .ok (.int (low + trial.hash salt % (high - low + 1))) := by
  have inOrder : (Number.int high).less (.int low) = false := by
    rw [Number.int_less_int, decide_eq_false_iff_not]
    omega
  -- Bounds in order are less than one apart from a width of one, so the width is not zero.
  have width : Number.reduce (trial.hash salt) (.int (high - low + 1)) =
      .ok (.int (Int.emod (trial.hash salt) (high - low + 1))) :=
    Number.reduce_int (by omega)
  simp only [integerBetween, inOrder, Number.sub, Number.add, Number.combine, check_ok_bind, width]
  rfl

/-- A number between two bounds is as far from the lower one as the share of the width says. -/
theorem floatBetween_unit (low high : Number) : trial.floatBetween low high salt = (do
    let width ← high.sub low
    low.add (← Number.mul (.float (trial.unit salt)) width)) := by
  rw [floatBetween, fraction_unit, check_ok_bind]

/-- The position of an element of a list that is not empty is below its length. -/
theorem position_below {count : Nat} (some : 0 < count) :
    trial.position (count - 1) salt = .ok (trial.below count salt) := by
  have width : (count : Int) - 1 - 0 + 1 = count := by omega
  rw [position, integerBetween_int (by omega), width, Int.zero_add]
  rfl

/-- A choice is looked up at what is left of the hash over the number of choices. -/
theorem uniformChoice_below (choices : List α) : trial.uniformChoice choices salt =
    match choices[trial.below choices.length salt]? with
    | some choice => .ok choice
    | none => .error (.noChoices "uniformChoice") := by
  cases choices with
  | nil => rfl
  | cons first rest =>
    -- What is left over a positive length is a place inside the list.
    have some : 0 < (first :: rest).length := Nat.zero_lt_succ _
    have inside : trial.below (first :: rest).length salt < (first :: rest).length :=
      Nat.mod_lt _ some
    rw [List.getElem?_eq_getElem inside, uniformChoice, if_neg (by simp)]
    dsimp only
    rw [position_below some, check_ok_bind, elementAt_natCast inside]

/-- Where there is a last total, a share of it is drawn. -/
theorem firstReaching?_last {choices : List α} {totals : List Binary64} {last : Binary64}
    (ends : totals.getLast? = some last) : trial.firstReaching? choices totals salt = (do
    let target ← trial.floatBetween (.int 0) (.float last) salt
    return ((choices.zip totals).find? fun (_, total) =>
      target.atMost (.float total)).map Prod.fst) := by
  rw [firstReaching?, elementAt_last, ends, check_ok_bind]

/-- Exchanging the elements at two places inside a list. -/
theorem exchange_swap {items : List α} {i j : Nat} (insideI : i < items.length)
    (insideJ : j < items.length) : exchange items i j = .ok (swap items i j) := by
  -- Neither the lookups nor the replacements leave the list.
  have insideJ' : j < (items.set i items[j]).length := by rwa [List.length_set]
  rw [exchange, elementAt_natCast insideJ, check_ok_bind, elementAt_natCast insideI, check_ok_bind,
    replaceAt_natCast insideI, check_ok_bind, replaceAt_natCast insideJ', swap,
    List.getElem?_eq_getElem insideI, List.getElem?_eq_getElem insideJ]

/-- An exchange keeps the length of the list. -/
@[simp] theorem length_swap (items : List α) (i j : Nat) : (swap items i j).length = items.length := by
  unfold swap
  split <;> simp

/-- Exchanges with earlier places shuffle a list without leaving it. -/
theorem exchangeDown_shuffle {pick : Nat → Except Fault Int} {place : Nat → Nat} {stop : Nat}
    (picks : ∀ position, 0 < position → pick position = .ok (place position))
    (earlier : ∀ position, 0 < position → place position < position) {position : Nat}
    {items : List α} (inside : position ≤ items.length - 1) :
    exchangeDown pick stop position items = .ok (shuffle place stop position items) := by
  -- The induction is on the position, which stays inside the list as it goes down.
  induction position generalizing items with
  | zero => rfl
  | succ position ih =>
    rw [exchangeDown, shuffle]
    split
    · rfl
    · have picked : place (position + 1) < position + 1 := earlier _ (Nat.zero_lt_succ _)
      rw [picks (position + 1) (Nat.zero_lt_succ _), check_ok_bind, exchange_swap (by omega) (by omega),
        check_ok_bind, ih (by rw [length_swap]; omega)]

/-- A sample is what a shuffle leaves above the place where it stops. -/
theorem sample_shuffle (choices : List α) (draws : Option Number) :
    trial.sample choices draws salt = (do
      let size := choices.length
      let stop := ((size : Int) - (← drawCount size draws)).toNat
      let pick position := trial.below position (.list [salt, .int position])
      return (shuffle pick stop (size - 1) choices).drop stop) := by
  -- Every place above the first one is exchanged with one that is drawn below it.
  have shuffles : ∀ stop,
      exchangeDown (fun i => trial.position (i - 1) (.list [salt, .int i])) stop
        (choices.length - 1) choices =
      .ok (shuffle (fun i => trial.below i (.list [salt, .int i])) stop (choices.length - 1)
        choices) := fun stop =>
    exchangeDown_shuffle (fun i some => position_below some) (fun i some => Nat.mod_lt _ some)
      (Nat.le_refl _)
  refine check_bind_congr fun count _ => ?_
  dsimp only
  rw [shuffles]
  rfl

/-- Whether a draw falls under a probability is whether its share does. -/
theorem occurs_happens (p : Number) : trial.occurs p salt = .ok (trial.happens p salt) := by
  rw [occurs, fraction_unit, check_ok_bind]
  rfl

/-- The items that draws of their own keep are those whose shares fall under the probability. -/
theorem filterFrom_keepFrom (p : Number) (index : Nat) (items : List α) :
    trial.filterFrom p salt index items = .ok (trial.keepFrom p salt index items) := by
  -- The induction is on the items, whose numbers go up.
  induction items generalizing index with
  | nil => rfl
  | cons item rest ih =>
    rw [filterFrom, occurs_happens, check_ok_bind, ih, check_ok_bind, keepFrom]
    split <;> rfl

/-- Behind its checks a filter keeps the choices whose shares fall under the probability. -/
theorem bernoulliFilter_keepFrom (choices : List α) (p : Number) :
    trial.bernoulliFilter choices p salt = (do
      admitProbability p
      if choices.isEmpty then throw (.noChoices "bernoulliFilter")
      return trial.keepFrom p salt 0 choices) := by
  simp only [bernoulliFilter, filterFrom_keepFrom]
  rfl

/-- Behind its check a trial asks whether the share falls under the probability. -/
theorem bernoulliTrial_happens (p : Number) : trial.bernoulliTrial p salt = (do
    admitProbability p
    return if trial.happens p salt then 1 else 0) := by
  simp only [bernoulliTrial, occurs_happens, check_ok_bind]

/-- A distance that is left over a width does not lead past the upper integer. -/
theorem int_bounds {low high : Int} (ordered : low ≤ high) (count : Int) :
    low ≤ low + count % (high - low + 1) ∧ low + count % (high - low + 1) ≤ high := by
  have atLeast := Int.emod_nonneg count (show high - low + 1 ≠ 0 by omega)
  have below := Int.emod_lt_of_pos count (show 0 < high - low + 1 by omega)
  omega

/-- A drawn integer lies between its bounds. -/
theorem integerBetween_bounds {low high : Int} {drawn : Number}
    (gave : trial.integerBetween (.int low) (.int high) salt = .ok drawn) :
    ∃ whole, drawn = .int whole ∧ low ≤ whole ∧ whole ≤ high := by
  by_cases ordered : low ≤ high
  · rw [integerBetween_int ordered] at gave
    cases gave
    exact ⟨_, rfl, int_bounds ordered _⟩
  · -- Bounds in disorder give no result.
    have disorder : (Number.int high).less (.int low) = true := by
      rw [Number.int_less_int, decide_eq_true_eq]
      omega
    rw [integerBetween, if_pos disorder] at gave
    cases gave

/-- A uniform choice is one of the choices. -/
theorem uniformChoice_mem {choices : List α} {choice : α}
    (gave : trial.uniformChoice choices salt = .ok choice) : choice ∈ choices := by
  -- The choice is the item at some position.
  rw [uniformChoice_below] at gave
  split at gave
  · next found =>
    cases gave
    exact List.mem_of_getElem? found
  · cases gave

/-- The first choice to reach a drawn share is one of the choices. -/
theorem firstReaching?_mem {choices : List α} {totals : List Binary64} {choice : α}
    (gave : trial.firstReaching? choices totals salt = .ok (some choice)) : choice ∈ choices := by
  -- The choice comes from a pair of a choice and its total.
  obtain ⟨last, -, gave⟩ := check_bind_ok gave
  obtain ⟨target, -, gave⟩ := check_bind_ok gave
  simp only [pure, Except.pure, Except.ok.injEq, Option.map_eq_some_iff] at gave
  obtain ⟨⟨found, total⟩, first, rfl⟩ := gave
  exact (List.of_mem_zip (List.mem_of_find?_eq_some first)).1

/-- Admitted weights are as many as the choices, of which there is at least one. -/
theorem of_admitWeights {β : Type} {choices : List α} {weights : List β}
    (admitted : admitWeights choices weights = .ok ()) :
    choices ≠ [] ∧ weights.length = choices.length := by
  -- The two refusals are for no choice at all and for another number of weights.
  unfold admitWeights at admitted
  split at admitted
  · cases admitted
  · next present =>
    split at admitted
    · cases admitted
    · next alike => exact ⟨by simpa using present, by simpa using alike⟩

/-- There are as many totals as weights. -/
@[simp] theorem length_totals (weights : List Binary64) :
    (totals weights).length = weights.length := by
  -- Each weight adds one total, whatever the total before it is.
  have onward : ∀ (total : Binary64) (rest : List Binary64),
      (totalsFrom total rest).length = rest.length := by
    intro total rest
    induction rest generalizing total with
    | nil => rfl
    | cons weight rest ih => simp [totalsFrom, ih]
  cases weights with
  | nil => rfl
  | cons weight rest => simp [totals, onward]

/-- A weighted choice is one of the choices. -/
theorem weightedChoice_mem {choices : List α} {weights : List Number} {choice : α}
    (gave : trial.weightedChoice choices weights salt = .ok choice) : choice ∈ choices := by
  -- The choice has reached the share, or it is the last one.
  obtain ⟨-, -, gave⟩ := check_bind_ok gave
  obtain ⟨rounded, -, gave⟩ := check_bind_ok gave
  obtain ⟨reached, drawn, gave⟩ := check_bind_ok gave
  cases reached with
  | some found =>
    cases gave
    exact firstReaching?_mem drawn
  | none =>
    dsimp only at gave
    rw [elementAt_last] at gave
    split at gave
    · next last =>
      cases gave
      exact List.mem_of_getLast? last
    · cases gave

/-- A trial with a probability gives zero or one. -/
theorem bernoulliTrial_bit {p : Number} {bit : Int} (gave : trial.bernoulliTrial p salt = .ok bit) :
    bit = 0 ∨ bit = 1 := by
  -- What is no probability gives no result.
  rw [bernoulliTrial_happens] at gave
  obtain ⟨-, -, gave⟩ := check_bind_ok gave
  cases gave
  split
  · exact .inr rfl
  · exact .inl rfl

end Trial
end TrialScript

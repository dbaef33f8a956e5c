import TrialScript.Proofs.Trial.Draws

/-! Draws with a probability: none goes through at zero, and at one all but those at the largest hash. -/

namespace TrialScript

namespace Number

/-- A number that equals an integer has the place of that integer. -/
theorem place?_of_equals_int {n : Number} {value : Int} (same : n.equals (.int value) = true) :
    n.place? = some (.point (value * Binary64.unitsPerOne)) := by
  -- Equal numbers share a place, and an integer has just one.
  obtain ⟨place, left, right⟩ := equals_iff.mp same
  cases right
  exact left

end Number

namespace Trial

variable {α : Type} {trial : Trial} {salt : Value} {p : Number}

/-- The choices whose positions meet a condition, in order. -/
def chosenAt (meets : Nat → Bool) (choices : List α) : List α :=
  (choices.zipIdx.filter fun choice => meets choice.2).map Prod.fst

/-- All choices are kept where every position meets the condition, and only there. -/
theorem chosenAt_eq_self {meets : Nat → Bool} {choices : List α} :
    chosenAt meets choices = choices ↔ ∀ position < choices.length, meets position = true := by
  have all : choices.zipIdx.map Prod.fst = choices := List.zipIdx_map_fst 0 choices
  constructor
  · intro kept position inside
    -- A list that loses an item is shorter than it was.
    have length : (choices.zipIdx.filter fun choice => meets choice.2).length =
        choices.zipIdx.length := by
      rw [List.length_zipIdx]
      simpa [chosenAt] using congrArg List.length kept
    have each := List.length_filter_eq_length_iff.mp length
    have member : (choices[position], position) ∈ choices.zipIdx := by
      rw [List.mk_mem_zipIdx_iff_getElem?, List.getElem?_eq_getElem inside]
    exact each _ member
  · intro each
    have whole : (choices.zipIdx.filter fun choice => meets choice.2) = choices.zipIdx := by
      rw [List.filter_eq_self]
      intro choice member
      exact each _ (List.snd_lt_of_mem_zipIdx member)
    rw [chosenAt, whole, all]

/-- No choice is kept where no position meets the condition. -/
theorem chosenAt_eq_nil (choices : List α) : chosenAt (fun _ => false) choices = [] := by
  rw [chosenAt, List.filter_false, List.map_nil]

/-- A filter keeps the items whose positions have a draw that goes through. -/
theorem keepFrom_eq (index : Nat) (items : List α) : trial.keepFrom p salt index items =
    ((items.zipIdx index).filter fun item =>
      trial.happens p (.list [salt, .int item.2])).map Prod.fst := by
  -- Each step looks at one item and goes on with the next position.
  induction items generalizing index with
  | nil => rfl
  | cons item rest ih =>
    rw [keepFrom, List.zipIdx_cons, List.filter_cons]
    split
    · rw [List.map_cons, ih]
    · exact ih (index + 1)

/-- With a probability and some choice, the draws alone decide. -/
theorem bernoulliFilter_eq {choices : List α} (some : choices ≠ []) (admitted : isProbability p = true) :
    trial.bernoulliFilter choices p salt =
      .ok (chosenAt (fun position => trial.happens p (.list [salt, .int position])) choices) := by
  have present : choices.isEmpty = false := by simpa using some
  simp only [bernoulliFilter_keepFrom, admitProbability, if_pos admitted, present]
  rw [chosenAt, ← keepFrom_eq 0 choices]
  rfl

/-- With a probability, the draw alone decides. -/
theorem bernoulliTrial_eq (admitted : isProbability p = true) :
    trial.bernoulliTrial p salt = .ok (if trial.happens p salt then 1 else 0) := by
  simp only [bernoulliTrial_happens, admitProbability, if_pos admitted]
  rfl

/-- Whether a draw goes through is how its share compares with the probability in units. -/
theorem happens_eq {units : Int} (placed : p.place? = some (.point units)) :
    trial.happens p salt = decide ((trial.unit salt).magnitude < units) := by
  have share : (Number.float (trial.unit salt)).place? = _ :=
    Binary64.place?_of_isFinite (trial.isFinite_unit salt)
  rw [happens, Number.less, share, placed, units_unit]
  rfl

/-- Nothing goes through with probability zero. -/
theorem happens_zero (zero : p.equals (.int 0) = true) : trial.happens p salt = false := by
  rw [happens_eq (Number.place?_of_equals_int zero), decide_eq_false_iff_not]
  omega

/-- With probability one a draw goes through unless its hash is the largest one. -/
theorem happens_one (one : p.equals (.int 1) = true) :
    trial.happens p salt = decide (trial.hash salt < trial.policy.maxHash) := by
  rw [happens_eq (Number.place?_of_equals_int one), Int.one_mul]
  exact decide_eq_decide.mpr (Int.ofNat_lt.trans magnitude_unit_lt)

/-- Numbers that equal zero or one are probabilities. -/
theorem isProbability_of_equals {value : Int} (least : 0 ≤ value) (most : value ≤ 1)
    (same : p.equals (.int value) = true) : isProbability p = true := by
  -- Equality takes both ends of the unit interval along.
  have above := Number.atMost_trans (Number.int_atMost_int least)
    (Number.atMost_of_equals (Number.equals_symm same))
  have below := Number.atMost_trans (Number.atMost_of_equals same) (Number.int_atMost_int most)
  rw [isProbability, above, below]
  rfl

/--
Probability zero is certain to fail, and probability one fails for the largest hash alone.

A draw goes through if its share is smaller than the probability. The share reaches one where the
hash is the largest of the policy, and nothing is smaller than one there. A filter makes one such
draw for each position and returns all choices if none of them fails.
-/
theorem bernoulli_ends (trial : Trial) (salt : Value) {choices : List α} (some : choices ≠ [])
    {never always : Number} (zero : never.equals (.int 0) = true)
    (one : always.equals (.int 1) = true) :
    trial.bernoulliTrial never salt = .ok 0 ∧
    trial.bernoulliFilter choices never salt = .ok [] ∧
    trial.bernoulliTrial always salt =
      .ok (if trial.hash salt < trial.policy.maxHash then 1 else 0) ∧
    trial.bernoulliFilter choices always salt = .ok (chosenAt (fun position =>
      decide (trial.hash (.list [salt, .int position]) < trial.policy.maxHash)) choices) ∧
    (trial.bernoulliFilter choices always salt = .ok choices ↔ ∀ position < choices.length,
      trial.hash (.list [salt, .int position]) < trial.policy.maxHash) := by
  -- No share is below zero, and only that of the largest hash is not below one.
  have lowest := isProbability_of_equals (Int.le_refl 0) (by decide) zero
  have highest := isProbability_of_equals (by decide) (Int.le_refl 1) one
  have filtered : trial.bernoulliFilter choices always salt = .ok (chosenAt (fun position =>
      decide (trial.hash (.list [salt, .int position]) < trial.policy.maxHash)) choices) := by
    rw [bernoulliFilter_eq some highest]
    simp only [happens_one one]
  refine ⟨?_, ?_, ?_, filtered, ?_⟩
  · rw [bernoulliTrial_eq lowest, happens_zero zero]
    rfl
  · rw [bernoulliFilter_eq some lowest]
    simp only [happens_zero zero, chosenAt_eq_nil]
  · rw [bernoulliTrial_eq highest, happens_one one]
    simp only [decide_eq_true_eq]
  · rw [filtered, Except.ok.injEq, chosenAt_eq_self]
    simp only [decide_eq_true_eq]

/-- With one kept digit a salt has the largest hash, at which probability one fails. -/
theorem bernoulli_ends_largest :
    let choices : List Value := [.str "a", .str "b"]
    let trial := Trial.start "exp" ⟨".", 1, by decide, by decide⟩ (.ofBase .empty)
    trial.hash (.str "u413") = trial.policy.maxHash ∧
      trial.bernoulliTrial (.int 0) (.str "u413") = .ok 0 ∧
      trial.bernoulliTrial (.int 1) (.str "u413") = .ok 0 ∧
      trial.bernoulliFilter choices (.int 0) (.str "u413") = .ok [] ∧
      trial.bernoulliFilter choices (.int 1) (.str "u413") = .ok [.str "b"] := by
  -- The first salt has the largest hash, and so has the first position of the filter.
  intro choices trial
  have some : choices ≠ [] := by decide
  have largest : trial.hash (.str "u413") = trial.policy.maxHash := by decide +kernel
  obtain ⟨failed, emptied, drawn, kept, -⟩ := @bernoulli_ends Value trial (.str "u413") choices some
    (.int 0) (.int 1) (by decide +kernel) (by decide +kernel)
  refine ⟨largest, failed, ?_, emptied, ?_⟩
  · rw [drawn, largest, if_neg (Nat.lt_irrefl _)]
  · rw [kept]
    decide +kernel

end Trial
end TrialScript

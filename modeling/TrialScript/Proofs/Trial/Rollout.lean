import TrialScript.Proofs.Trial.Bernoulli

/-! Rollouts: a higher probability and further choices never drop what was kept before. -/

namespace TrialScript

namespace Number

variable {x y z : Number}

/-- What is smaller than a number is smaller than every number that is at least as large. -/
theorem less_of_less_of_atMost (smaller : x.less y = true) (within : y.atMost z = true) :
    x.less z = true := by
  -- A number has one place, so both facts speak of the same one in the middle.
  obtain ⟨low, middle, atLow, atMiddle, below⟩ := less_iff.mp smaller
  obtain ⟨middle', high, atMiddle', atHigh, above⟩ := atMost_iff.mp within
  cases atMiddle.symm.trans atMiddle'
  refine less_iff.mpr ⟨low, high, atLow, atHigh, ?_⟩
  rcases above with above | rfl
  · exact Place.before_trans below above
  · exact below

end Number

namespace Trial

variable {α : Type} {trial : Trial} {p q : Number} {salt : Value}

/-- The choices that a filter keeps, each with the position that it was taken from. -/
def keptAt (trial : Trial) (p : Number) (salt : Value) (choices : List α) : List (α × Nat) :=
  choices.zipIdx.filter fun choice => trial.happens p (.list [salt, .int choice.2])

/-- A kept choice is one of the choices, and the draw of its position goes through. -/
theorem mem_keptAt {choices : List α} {choice : α × Nat} : choice ∈ trial.keptAt p salt choices ↔
    choices[choice.2]? = some choice.1 ∧
      trial.happens p (.list [salt, .int choice.2]) = true := by
  rw [keptAt, List.mem_filter, ← List.mk_mem_zipIdx_iff_getElem?]

/-- A filter with a probability gives the kept choices without their positions. -/
theorem bernoulliFilter_keptAt {choices : List α} (some : choices ≠ [])
    (admitted : isProbability p = true) :
    trial.bernoulliFilter choices p salt = .ok ((trial.keptAt p salt choices).map Prod.fst) :=
  bernoulliFilter_eq some admitted

/-- A draw that goes through with one probability does so with every higher one. -/
theorem happens_of_atMost (raised : p.atMost q = true) (happened : trial.happens p salt = true) :
    trial.happens q salt = true :=
  Number.less_of_less_of_atMost happened raised

/-- Raising the probability keeps every choice at its position, and so do further choices behind. -/
theorem keptAt_sublist (raised : p.atMost q = true) (choices more : List α) :
    (trial.keptAt p salt choices).Sublist (trial.keptAt q salt (choices ++ more)) := by
  -- A draw is made for the position alone, which further choices leave as it is.
  have onward : ∀ choice : α × Nat, trial.happens p (.list [salt, .int choice.2]) = true →
      trial.happens q (.list [salt, .int choice.2]) = true :=
    fun _ happened => happens_of_atMost raised happened
  have raisedHere : (trial.keptAt p salt choices).Sublist (trial.keptAt q salt choices) :=
    List.monotone_filter_right choices.zipIdx onward
  rw [keptAt, keptAt, List.zipIdx_append, List.filter_append]
  exact raisedHere.trans (List.sublist_append_left _ _)

/-- What is kept of a longer list stands behind the first choices, or it is one of them. -/
theorem split_of_mem_keptAt {choices more : List α} {choice : α × Nat}
    (kept : choice ∈ trial.keptAt q salt (choices ++ more)) :
    (∃ further, choice.2 = choices.length + further ∧ more[further]? = some choice.1) ∨
      choices[choice.2]? = some choice.1 := by
  -- A place is one of the choices or behind them, by its number.
  obtain ⟨found, -⟩ := mem_keptAt.mp kept
  rcases Nat.lt_or_ge choice.2 choices.length with inside | behind
  · rw [List.getElem?_append_left inside] at found
    exact .inr found
  · rw [List.getElem?_append_right behind] at found
    exact .inl ⟨choice.2 - choices.length, (Nat.add_sub_cancel' behind).symm, found⟩

/--
Raising a probability never takes anything away.

A trial that goes through with one probability goes through with every higher one. A filter keeps
all that it kept, in the same order, also where further choices are added behind: what is new stands
at a position of those, or at a position of a choice that the lower probability had rejected.
-/
theorem raising_keeps (trial : Trial) (salt : Value) {p q : Number}
    (lower : isProbability p = true) (higher : isProbability q = true)
    (raised : p.atMost q = true) {choices : List α} (some : choices ≠ []) (more : List α) :
    (∃ rare often, trial.bernoulliTrial p salt = .ok rare ∧
      trial.bernoulliTrial q salt = .ok often ∧ rare ≤ often) ∧
    trial.bernoulliFilter choices p salt = .ok ((trial.keptAt p salt choices).map Prod.fst) ∧
    trial.bernoulliFilter (choices ++ more) q salt =
      .ok ((trial.keptAt q salt (choices ++ more)).map Prod.fst) ∧
    (trial.keptAt p salt choices).Sublist (trial.keptAt q salt (choices ++ more)) ∧
    ∀ extra ∈ trial.keptAt q salt (choices ++ more), extra ∉ trial.keptAt p salt choices →
      (∃ further, extra.2 = choices.length + further ∧ more[further]? = .some extra.1) ∨
      choices[extra.2]? = .some extra.1 ∧
        trial.happens p (.list [salt, .int extra.2]) = false := by
  have longer : choices ++ more ≠ [] := List.append_ne_nil_of_left_ne_nil some more
  refine ⟨⟨_, _, bernoulliTrial_eq lower, bernoulliTrial_eq higher, ?_⟩,
    bernoulliFilter_keptAt some lower, bernoulliFilter_keptAt longer higher,
    keptAt_sublist raised choices more, ?_⟩
  · -- One is only given up for one.
    by_cases drawn : trial.happens p salt = true
    · rw [if_pos drawn, if_pos (happens_of_atMost raised drawn)]
    · rw [if_neg drawn]
      split <;> decide
  · intro extra kept new
    refine (split_of_mem_keptAt kept).imp_right fun found => ⟨found, ?_⟩
    -- A draw that had gone through would have kept the choice before.
    rw [← Bool.not_eq_true]
    exact fun happened => new (mem_keptAt.mpr ⟨found, happened⟩)

/-- From a quarter to three quarters two more choices are kept, and one of two added behind them. -/
theorem raising_keeps_quarters :
    let trial := Trial.start "exp" .default (.ofBase .empty)
    let quarter : Number := .float (.ofQuotient 1 4)
    let most : Number := .float (.ofQuotient 3 4)
    let choices : List String := ["a", "b", "c", "d"]
    let more : List String := ["e", "f"]
    isProbability quarter = true ∧ isProbability most = true ∧ quarter.atMost most = true ∧
      trial.bernoulliFilter choices quarter (.str "u3") = .ok ["b", "d"] ∧
      trial.bernoulliFilter (choices ++ more) most (.str "u3") = .ok ["a", "b", "c", "d", "f"] ∧
      (trial.keptAt quarter (.str "u3") choices).Sublist
        (trial.keptAt most (.str "u3") (choices ++ more)) := by
  -- Each probability is run, and the theorem says what the larger one keeps of the smaller one.
  intro trial quarter most choices more
  have lower : isProbability quarter = true := by decide +kernel
  have higher : isProbability most = true := by decide +kernel
  have raised : quarter.atMost most = true := by decide +kernel
  have some : choices ≠ [] := by decide
  obtain ⟨-, few, many, kept, -⟩ :=
    raising_keeps trial (.str "u3") lower higher raised some more
  refine ⟨lower, higher, raised, ?_, ?_, kept⟩
  · rw [few]
    decide +kernel
  · rw [many]
    decide +kernel

end Trial
end TrialScript

import TrialScript.Proofs.Numeric.Halves
import TrialScript.Proofs.Trial.Draws
import TrialScript.Proofs.Trial.Unit

/-! Integers drawn between bounds of either kind: what is drawn, and where it passes the upper bound. -/

namespace TrialScript

namespace Trial

variable {trial : Trial} {salt : Value} {low high : Number} {x y : Binary64}

section Mixed

variable (ordered : high.less low = false) (mixed : ¬ (low.isInt = true ∧ high.isInt = true))

include ordered mixed

/-- Between bounds that are not both integers the draw is calculated in binary64. -/
theorem integerBetween_of_toFloat (converts : low.toFloat = .ok x)
    (converts' : high.toFloat = .ok y) : trial.integerBetween low high salt =
      .ok (.float (x.add ((Binary64.ofInt (trial.hash salt)).rem
        ((y.sub x).add (.ofInt 1))))) := by
  -- The hash has few enough bits to be converted exactly.
  have small : trial.hash salt < 2 ^ 53 := by
    have := trial.hash_lt salt
    omega
  have counts := (Binary64.isFinite_iff.mp (Binary64.counts_ofInt small).1).2
  have span : high.sub low = .ok (.float (y.sub x)) :=
    Number.combine_of_toFloat (fun both => mixed both.symm) converts' converts
  have width : (Number.float (y.sub x)).add (.int 1) = .ok (.float ((y.sub x).add (.ofInt 1))) :=
    Number.combine_of_toFloat (by simp [Number.isInt]) rfl (Number.toFloat_int (by decide +kernel))
  have away : ((y.sub x).add (.ofInt 1)).isZero = false := Number.isZero_width ordered span width
  have rest : Number.reduce (trial.hash salt) (.float ((y.sub x).add (.ofInt 1))) =
      .ok (.float ((Binary64.ofInt (trial.hash salt)).rem ((y.sub x).add (.ofInt 1)))) :=
    Number.reduce_float away (Number.toFloat_int counts)
  have drawn : ∀ distance : Binary64, low.add (.float distance) = .ok (.float (x.add distance)) :=
    fun distance => Number.combine_of_toFloat (by simp [Number.isInt]) converts rfl
  rw [integerBetween, if_neg (by simp [ordered]), span, check_ok_bind, width, check_ok_bind, rest,
    check_ok_bind, drawn]

/-- Bounds that are not both integers stop the draw unless both can be converted. -/
theorem integerBetween_of_not_fits (large : ¬ (low.Fits ∧ high.Fits)) :
    trial.integerBetween low high salt = .error .overflow := by
  have span : high.sub low = .error .overflow :=
    Number.combine_of_not_fits (fun both => mixed both.symm) fun both => large both.symm
  rw [integerBetween, if_neg (by simp [ordered]), span]
  rfl

end Mixed

/-- What is left over an even width is no more than the even distance that the width goes beyond. -/
theorem emod_le_of_even {distance : Int} (nonneg : 0 ≤ distance) (even : 2 ∣ distance)
    (count : Int) : 2 * count % (distance + 2) ≤ distance := by
  -- Both sides are twice something, where the bound is that of a remainder.
  obtain ⟨half, rfl⟩ := even
  have width : 2 * half + 2 = 2 * (half + 1) := by omega
  have below := Int.emod_lt_of_pos count (show 0 < half + 1 by omega)
  rw [width, Int.mul_emod_mul_of_pos _ _ (by decide)]
  omega

/--
What is drawn between two bounds that are integers or numbers of halves.

Between two integers it is an integer between them. Any other two bounds are converted to binary64
first, and an integer without room in it stops the draw. Counted in halves, what is left of the hash
over the distance and one more is added to the lower bound, and the sum is rounded once. It is never
below the lower bound, and not above the upper one if the bounds are a whole distance apart. If they
are not, it goes past the upper bound by one half where the hash leaves all of the width but that.
-/
theorem integerBetween_halves (lower : low.InHalves) (upper : high.InHalves)
    (ordered : low.atMost high = true) (trial : Trial) (salt : Value) :
    (∀ least most : Int, low = .int least → high = .int most →
      ∃ drawn : Int, trial.integerBetween low high salt = .ok (.int drawn) ∧
        least ≤ drawn ∧ drawn ≤ most) ∧
    (¬ (low.isInt = true ∧ high.isInt = true) →
      (¬ (low.Fits ∧ high.Fits) → trial.integerBetween low high salt = .error .overflow) ∧
      ∀ x y : Binary64, low.toFloat = .ok x → high.toFloat = .ok y →
        ∃ i j : Int, x.Halves i ∧ y.Halves j ∧ i ≤ j ∧
          let rest := 2 * (trial.hash salt : Int) % (j - i + 2)
          let drawn := Number.float (.ofQuotient (i + rest) 2)
          trial.integerBetween low high salt = .ok drawn ∧
          Number.atMost (.float x) drawn = true ∧
          (2 ∣ j - i ∨ rest ≤ j - i → drawn.atMost (.float y) = true) ∧
          (j - i < rest → (j + 1).natAbs < 2 ^ 53 → drawn.atMost (.float y) = false)) := by
  have inOrder := Number.not_less_of_atMost ordered
  refine ⟨?_, fun mixed => ⟨integerBetween_of_not_fits inOrder mixed, ?_⟩⟩
  -- Between two integers the draw is one of the integers, both bounds included.
  · rintro least most rfl rfl
    have inOrder : least ≤ most := by
      rw [Number.int_less_int, decide_eq_false_iff_not] at inOrder
      omega
    exact ⟨_, integerBetween_int inOrder, int_bounds inOrder _⟩
  · intro x y converts converts'
    obtain ⟨i, counted⟩ := lower.toFloat converts
    obtain ⟨j, counted'⟩ := upper.toFloat converts'
    -- The conversions of the bounds are in order, as one of the bounds is not rounded.
    have unrounded := (Number.exists_float mixed).symm
    have le := (counted.units_le_iff counted').mp
      (Number.units_toFloat_le inOrder converts' converts unrounded counted'.1 counted.1)
    obtain ⟨sum, finite, above, within, beyond⟩ :=
      Binary64.add_rem_width (trial.hash_lt salt) counted counted' le
    have drawn :=
      @integerBetween_of_toFloat trial salt low high x y inOrder mixed converts converts'
    rw [sum] at drawn finite above within beyond
    -- The lower bound always holds, and the upper one holds or not by the rest.
    refine ⟨i, j, counted, counted', le, drawn, ?_, ?_, ?_⟩
    · exact (Binary64.atMost_iff_units counted.1 finite).mpr above
    · intro fits
      refine (Binary64.atMost_iff_units finite counted'.1).mpr (within ?_)
      rcases fits with even | fits
      · exact emod_le_of_even (by omega) even _
      · exact fits
    · intro left small
      have past := beyond left small
      rw [← Bool.not_eq_true, Binary64.atMost_iff_units finite counted'.1]
      omega

/-- Between one half and one a draw can come to one and a half; a bound that is rounded down can be missed. -/
theorem integerBetween_halves_past :
    let trial := Trial.start "exp" .default (.ofBase .empty)
    let half := Number.float (.ofQuotient 1 2)
    let drawn := Number.float (.ofQuotient 3 2)
    let bottom := Number.int (1 - 2 ^ 60)
    let below := Number.float (.ofQuotient (-2 ^ 61) 2)
    half.atMost (.int 1) = true ∧ trial.integerBetween half (.int 1) (.str "c") = .ok drawn ∧
      drawn.atMost (.float (.ofInt 1)) = false ∧
      bottom.atMost (.float (.zero false)) = true ∧
      trial.disable.integerBetween bottom (.float (.zero false)) (.str "c") = .ok below ∧
      bottom.atMost below = false := by
  -- Both draws are counted in halves; the bound that is rounded is the integer one of the second.
  intro trial half drawn bottom below
  have inOrder : half.atMost (.int 1) = true := by decide +kernel
  have inOrder' : bottom.atMost (.float (.zero false)) = true := by decide +kernel
  have one : (Binary64.ofQuotient 1 2).Halves 1 := ⟨by decide +kernel, by decide +kernel⟩
  have room : (Binary64.ofInt 1).isInfinite = false := by decide +kernel
  have rounded : (Binary64.ofInt (1 - 2 ^ 60)).Halves (-2 ^ 61) :=
    ⟨by decide +kernel, by decide +kernel⟩
  have room' : (Binary64.ofInt (1 - 2 ^ 60)).isInfinite = false := by decide +kernel
  have none : (Binary64.zero false).Halves 0 := ⟨rfl, by decide +kernel⟩
  have lower : half.InHalves := ⟨1, one⟩
  have upper : (Number.int 1).InHalves := trivial
  have lower' : bottom.InHalves := trivial
  have upper' : (Number.float (.zero false)).InHalves := ⟨0, none⟩
  have mixed : ¬ (half.isInt = true ∧ (Number.int 1).isInt = true) := by decide
  have mixed' : ¬ (bottom.isInt = true ∧ (Number.float (.zero false)).isInt = true) := by decide
  obtain ⟨i, j, counted, counted', -, draws, -, -, past⟩ :=
    ((integerBetween_halves lower upper inOrder trial (.str "c")).2 mixed).2 _ _ rfl
      (Number.toFloat_int room)
  obtain ⟨i', j', counts, counts', -, draws', -⟩ :=
    ((integerBetween_halves lower' upper' inOrder' trial.disable (.str "c")).2 mixed').2 _ _
      (Number.toFloat_int room') rfl
  -- The conversions and their halves are those that the general result speaks of.
  obtain rfl := counted.unique one
  obtain rfl := counted'.unique Binary64.halves_one
  obtain rfl := counts.unique rounded
  obtain rfl := counts'.unique none
  have hashed : 2 * (trial.hash (.str "c") : Int) % (2 - 1 + 2) = 2 := by decide +kernel
  rw [hashed] at draws past
  exact ⟨inOrder, draws, past (by decide) (by decide), inOrder', draws', by decide +kernel⟩

end Trial
end TrialScript

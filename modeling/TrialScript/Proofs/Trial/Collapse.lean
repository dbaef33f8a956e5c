import Mathlib.Data.List.Rotate
import TrialScript.Proofs.Evaluation.Disabled
import TrialScript.Proofs.Trial.Bernoulli
import TrialScript.Proofs.Trial.Sampling

/-! Disabled trials: every draw comes to its first outcome, and samples are turned around by one place. -/

namespace TrialScript

namespace Number

/-- The integer zero has no units. -/
theorem place?_zero_int : (Number.int 0).place? = some (.point 0) :=
  congrArg (some ∘ Place.point) (Int.zero_mul _)

/-- Zero in binary64 has no units. -/
theorem place?_zero_float : (Number.float (.zero false)).place? = some (.point 0) :=
  Binary64.place?_of_isFinite (x := .zero false) rfl

end Number

namespace Trial

variable {α : Type} {trial : Trial} {salt : Value}

section Shuffled

/-- The first item changes places with another one, whatever comes between and behind them. -/
theorem swap_first (first other : α) (between behind : List α) :
    swap (first :: (between ++ other :: behind)) (between.length + 1) 0 =
      other :: (between ++ first :: behind) := by
  have inside : between.length + 1 < (first :: (between ++ other :: behind)).length := by simp
  rw [swap_of_inside inside (by simp)]
  simp

/--
Exchanging the first place with every place behind the stop, from the last one on.

The item next to the stop comes to the first place, the first item to the last place, and the items
in between move up by one place.
-/
theorem shuffle_first (before : List α) (first next : α) (after behind : List α) :
    shuffle (fun _ => 0) before.length (before.length + 1 + after.length)
      (first :: (before ++ next :: (after ++ behind))) =
        next :: (before ++ (after ++ first :: behind)) := by
  -- The induction is on the items behind the next one, of which the last is exchanged first.
  induction after using List.reverseRecOn generalizing first behind with
  | nil =>
    rw [List.length_nil, Nat.add_zero, shuffle, if_neg (by omega)]
    rw [List.nil_append, swap_first, shuffle_of_le (Nat.le_refl _)]
    rfl
  | append_singleton after last ih =>
    have rest : (before ++ next :: after).length = before.length + 1 + after.length := by
      rw [List.length_append, List.length_cons]
      omega
    have long : before.length + 1 + (after ++ [last]).length =
        (before ++ next :: after).length + 1 := by
      rw [rest, List.length_append, List.length_singleton]
      omega
    have items : before ++ next :: (after ++ [last] ++ behind) =
        (before ++ next :: after) ++ last :: behind := by simp
    rw [long, items, shuffle, if_neg (by omega), swap_first]
    rw [rest, List.append_assoc, List.cons_append, ih]
    simp

end Shuffled

section Disabled

variable (disabled : trial.enabled = false)
include disabled

/-- A disabled trial leads every exchange to the first place. -/
theorem picks_of_disabled : trial.picks salt = fun _ => 0 := by
  funext position
  rw [picks, below, hash_of_disabled disabled, Nat.zero_mod]

/-- In a disabled trial a draw goes through for every probability but zero. -/
theorem happens_of_disabled (p : Number) : trial.happens p salt = Number.less (.int 0) p := by
  rw [happens, unit_of_disabled disabled, Number.less, Number.less, Number.place?_zero_float,
    Number.place?_zero_int]

/-- A disabled trial draws the lower one of two integers. -/
theorem integerBetween_of_disabled {low high : Int} (ordered : low ≤ high) :
    trial.integerBetween (.int low) (.int high) salt = .ok (.int low) := by
  rw [integerBetween_int ordered, hash_of_disabled disabled, Int.natCast_zero, Int.zero_emod,
    Int.add_zero]

/-- A disabled trial chooses the first choice. -/
theorem uniformChoice_of_disabled (first : α) (rest : List α) :
    trial.uniformChoice (first :: rest) salt = .ok first := by
  simp only [uniformChoice_below, below, hash_of_disabled disabled, Nat.zero_mod, List.getElem?_cons_zero]

/-- A disabled trial goes through with every probability but zero. -/
theorem bernoulliTrial_of_disabled {p : Number} (admitted : isProbability p = true) :
    trial.bernoulliTrial p salt = .ok (if Number.less (.int 0) p then 1 else 0) := by
  rw [bernoulliTrial_eq admitted, happens_of_disabled disabled]

/-- A disabled trial keeps all choices or none, as the probability is not zero or is. -/
theorem bernoulliFilter_of_disabled {choices : List α} (some : choices ≠ []) {p : Number}
    (admitted : isProbability p = true) : trial.bernoulliFilter choices p salt =
      .ok (if Number.less (.int 0) p then choices else []) := by
  -- All shares are zero in a disabled trial, so the probability decides for all choices at once.
  rw [bernoulliFilter_eq some admitted]
  simp only [happens_of_disabled disabled]
  cases Number.less (.int 0) p with
  | true => rw [chosenAt_eq_self.mpr fun _ _ => rfl, if_pos rfl]
  | false => rw [chosenAt_eq_nil, if_neg Bool.false_ne_true]

/-- A disabled trial draws as many items as are asked for by exchanging each with the first place. -/
theorem sample_of_disabled {choices : List α} {draws : Option Number}
    (accepted : ∀ number, draws = some number → number.Fits ∧ number.isNaN = false) :
    trial.sample choices draws salt =
      .ok (drawnBy (fun _ => 0) (drawnLength choices.length draws) choices) := by
  obtain ⟨count, counted⟩ := succeeds_drawCount.mpr accepted
  rw [sample_of_drawCount counted, picks_of_disabled disabled]

end Disabled

/-- A number of draws that binary64 has no room for stops a sample, enabled or not. -/
theorem sample_of_not_fits {choices : List α} {draws : Number} (large : ¬ draws.Fits) :
    trial.sample choices (some draws) salt = .error .overflow := by
  simp only [sample, drawCount, Number.undefined, Number.toFloat_of_not_fits large, bind,
    Except.bind]

section Closed

/-- All items are drawn by moving each one up by a place, and the first one to the end. -/
theorem drawnBy_first_all (choices : List α) :
    drawnBy (fun _ => 0) choices.length choices = choices.rotate 1 := by
  -- With one choice nothing moves; otherwise each step exchanges with the first place.
  rw [drawnBy, Nat.sub_self, List.drop_zero]
  cases choices with
  | nil => rfl
  | cons first rest =>
    cases rest with
    | nil => rw [List.rotate_singleton, List.length_singleton, shuffle]
    | cons next after =>
      have turned := shuffle_first [] first next after []
      simp only [List.nil_append, List.append_nil, List.length_nil, Nat.zero_add] at turned
      rw [List.rotate_cons_succ, List.rotate_zero, List.length_cons, List.length_cons,
        Nat.add_sub_cancel, Nat.add_comm, turned]
      rfl

/-- Of several draws but not all, the first is untouched, the next one is left out, the last is the first item. -/
theorem drawnBy_first_some {choices : List α} {count : Nat} (several : 2 ≤ count)
    (part : count < choices.length) : drawnBy (fun _ => 0) count choices =
      choices[choices.length - count] ::
        (choices.drop (choices.length - count + 2) ++ [choices[0]]) := by
  obtain ⟨stop, stops⟩ : ∃ stop, choices.length = stop + 1 + count :=
    ⟨choices.length - count - 1, by omega⟩
  -- The choices are the first one, some before the stop, the one at it, the next one, and the others.
  obtain ⟨first, rest, rfl⟩ := List.exists_cons_of_length_pos (show 0 < choices.length by omega)
  rw [List.length_cons] at stops
  obtain ⟨before, behind, rfl, long⟩ : ∃ before behind, rest = before ++ behind ∧
      before.length = stop := ⟨rest.take stop, rest.drop stop, by simp,
        by rw [List.length_take]; omega⟩
  obtain ⟨kept, next, after, rfl⟩ : ∃ kept next after, behind = kept :: next :: after := by
    -- At least two choices stand behind the first one and those before the stop.
    have enough : 2 ≤ behind.length := by
      rw [List.length_append] at stops
      omega
    obtain ⟨kept, rest, rfl⟩ := List.exists_cons_of_length_pos (show 0 < behind.length by omega)
    rw [List.length_cons] at enough
    obtain ⟨next, after, rfl⟩ := List.exists_cons_of_length_pos (show 0 < rest.length by omega)
    exact ⟨kept, next, after, rfl⟩
  simp only [List.length_cons, List.length_append] at stops
  obtain rfl : count = after.length + 2 := by omega
  have size : (first :: (before ++ kept :: next :: after)).length =
      before.length + 1 + (after.length + 2) := by
    simp only [List.length_cons, List.length_append]
    omega
  have start : before.length + 1 + (after.length + 2) - (after.length + 2) = before.length + 1 := by
    omega
  have last : before.length + 1 + (after.length + 2) - 1 = before.length + 1 + 1 + after.length := by
    omega
  have turned := shuffle_first (before ++ [kept]) first next after []
  simp only [List.append_assoc, List.cons_append, List.nil_append, List.append_nil,
    List.length_append, List.length_singleton] at turned
  simp only [drawnBy, size, start, last, turned]
  simp

end Closed

/--
Every draw of a disabled trial comes to its first outcome.

Of integers the lower bound is drawn, of choices the first one, and with any probability but zero
everything goes through. A sample of everything moves each item up by a place and the first one to
the end. A sample of several items but not all of them has the item at the place where it stops, not
the one behind that, and ends with the first item; a single draw is the last item. How many draws
are asked for does not matter beyond the number of choices, but the number has to fit into binary64.
-/
theorem draws_of_disabled (disabled : trial.enabled = false) (salt : Value) :
    (∀ low high : Int, low ≤ high →
      trial.integerBetween (.int low) (.int high) salt = .ok (.int low)) ∧
    (∀ (first : α) (rest : List α), trial.uniformChoice (first :: rest) salt = .ok first) ∧
    (∀ p, isProbability p = true →
      trial.bernoulliTrial p salt = .ok (if Number.less (.int 0) p then 1 else 0)) ∧
    (∀ (choices : List α) (p : Number), choices ≠ [] → isProbability p = true →
      trial.bernoulliFilter choices p salt =
        .ok (if Number.less (.int 0) p then choices else [])) ∧
    (∀ (choices : List α) (draws : Option Number),
      (∀ number, draws = some number → number.Fits ∧ number.isNaN = false) →
      ∃ drawn, trial.sample choices draws salt = .ok drawn ∧
        ((∀ number, draws = some number → Number.atMost (.int choices.length) number = true) →
          drawn = choices.rotate 1) ∧
        (∀ count, drawnLength choices.length draws = count → (several : 2 ≤ count) →
          (part : count < choices.length) →
          drawn = choices[choices.length - count] ::
            (choices.drop (choices.length - count + 2) ++ [choices[0]])) ∧
        (drawnLength choices.length draws = 1 → (part : 1 < choices.length) →
          drawn = [choices[choices.length - 1]])) ∧
    (∀ (choices : List α) (draws : Number), ¬ draws.Fits →
      trial.sample choices (some draws) salt = .error .overflow) := by
  -- The operations are settled one by one, and a sample by how many of the choices it takes.
  refine ⟨fun low high => integerBetween_of_disabled disabled, uniformChoice_of_disabled disabled,
    fun p => bernoulliTrial_of_disabled disabled,
    fun choices p some => bernoulliFilter_of_disabled disabled some, ?_,
    fun choices draws => sample_of_not_fits⟩
  intro choices draws accepted
  refine ⟨_, sample_of_disabled disabled accepted, ?_, ?_, ?_⟩
  · intro all
    rw [drawnLength_of_all all, drawnBy_first_all]
  · intro count long several part
    rw [long]
    exact drawnBy_first_some several part
  · intro single part
    have present : choices ≠ [] := List.ne_nil_of_length_pos (by omega)
    rw [single, drawnBy_one, List.drop_length_sub_one present, List.getLast_eq_getElem]

/-- Of four choices a disabled trial draws all, three or one; so many draws as have no room stop it. -/
theorem draws_of_disabled_four :
    let trial := (Trial.start "exp" .default (.ofBase .empty)).disable
    let choices : List Value := [.str "a", .str "b", .str "c", .str "d"]
    let all : List Value := [.str "b", .str "c", .str "d", .str "a"]
    let three : List Value := [.str "b", .str "d", .str "a"]
    trial.enabled = false ∧
      trial.integerBetween (.int (-3)) (.int 9) (.str "salt") = .ok (.int (-3)) ∧
      trial.uniformChoice choices (.str "salt") = .ok (.str "a") ∧
      trial.bernoulliTrial (.float (.ofQuotient 1 3)) (.str "salt") = .ok 1 ∧
      trial.bernoulliFilter choices (.int 0) (.str "salt") = .ok [] ∧
      trial.sample choices none (.str "salt") = .ok all ∧
      trial.sample choices (some (.int 3)) (.str "salt") = .ok three ∧
      trial.sample choices (some (.int 1)) (.str "salt") = .ok [.str "d"] ∧
      trial.sample choices (some (.int (10 ^ 400))) (.str "salt") = .error .overflow := by
  -- Each outcome is what the theorem says, at a number of draws that fits or does not.
  intro trial choices all three
  obtain ⟨integer, choice, happened, kept, sampled, large⟩ :=
    @draws_of_disabled Value trial rfl (.str "salt")
  have passes : trial.bernoulliTrial (.float (.ofQuotient 1 3)) (.str "salt") = .ok 1 := by
    rw [happened _ (by decide +kernel), if_pos (by decide +kernel)]
  have refuses : trial.bernoulliFilter choices (.int 0) (.str "salt") = .ok [] := by
    rw [kept choices _ (by decide) (by decide +kernel), if_neg (by decide +kernel)]
  have fits {count : Int} (room : (Number.int count).Fits) :
      ∀ number, some (Number.int count) = some number → number.Fits ∧ number.isNaN = false := by
    intro number same
    cases same
    exact ⟨room, rfl⟩
  obtain ⟨_, drawsAll, turned, -, -⟩ := sampled choices none (by simp)
  obtain ⟨_, drawsThree, -, part, -⟩ := sampled choices (some (.int 3)) (fits (by decide +kernel))
  obtain ⟨_, drawsOne, -, -, last⟩ := sampled choices (some (.int 1)) (fits (by decide +kernel))
  rw [turned (by simp)] at drawsAll
  rw [part 3 rfl (by decide) (by decide)] at drawsThree
  rw [last rfl (by decide)] at drawsOne
  exact ⟨rfl, integer (-3) 9 (by decide), choice _ _, passes, refuses, drawsAll, drawsThree,
    drawsOne, large choices (.int (10 ^ 400)) (by decide +kernel)⟩

end Trial
end TrialScript

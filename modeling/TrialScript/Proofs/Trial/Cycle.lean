import Mathlib.GroupTheory.Perm.Cycle.Type
import TrialScript.Proofs.Trial.Sampling

/-! Full samples: the exchanges of a whole shuffle make up one cycle through all places. -/

namespace TrialScript.Trial

variable {α : Type} {trial : Trial} {salt : Value} {pick : Nat → Nat} {position : Nat}

section Steps

variable {first second : Equiv.Perm Nat}

/-- A permutation that stays in its own cycles wherever another one leads keeps the cycles of that one. -/
theorem sameCycle_of_steps (steps : ∀ place, second.SameCycle place (first place))
    {here there : Nat} (along : first.SameCycle here there) : second.SameCycle here there := by
  -- The induction is on the number of steps along the cycle, in either direction.
  obtain ⟨count, rfl⟩ := along
  induction count with
  | zero => exact .rfl
  | succ count ih =>
    rw [add_comm, zpow_one_add, Equiv.Perm.mul_apply]
    exact ih.trans (steps _)
  | pred count ih =>
    have back := steps ((first ^ (-(count : Int) - 1)) here)
    rw [← Equiv.Perm.mul_apply, ← zpow_one_add, add_sub_cancel] at back
    exact ih.trans back.symm

/-- An exchange with a place that stays where it is puts that place into a cycle and parts no others. -/
theorem sameCycle_swap_mul {next target : Nat} (still : first next = next) (place : Nat) :
    (Equiv.swap next target * first).SameCycle place (first place) := by
  by_cases reached : first place = target
  · -- The new place comes in between this place and the target that it leads to.
    have through : (Equiv.swap next target * first) place = next := by
      rw [Equiv.Perm.mul_apply, reached, Equiv.swap_apply_right]
    have onward : (Equiv.swap next target * first) next = target := by
      rw [Equiv.Perm.mul_apply, still, Equiv.swap_apply_left]
    refine ⟨2, ?_⟩
    rw [zpow_two, Equiv.Perm.mul_apply, through, onward, reached]
  · by_cases fixed : first place = next
    · -- Only the new place itself leads to the new place.
      have same : place = next := first.injective (fixed.trans still.symm)
      rw [fixed, same]
    · refine ⟨1, ?_⟩
      rw [zpow_one, Equiv.Perm.mul_apply, Equiv.swap_apply_of_ne_of_ne fixed reached]

end Steps

/-- Exchanging two items reads every place where the exchange of the two places leads. -/
theorem getElem?_swap {items : List α} {i j : Nat} (insideI : i < items.length)
    (insideJ : j < items.length) (place : Nat) :
    (swap items i j)[place]? = items[Equiv.swap i j place]? := by
  -- Only the two places themselves are led somewhere else.
  by_cases first : place = i
  · rw [first, Equiv.swap_apply_left, getElem?_swap_left insideI insideJ]
  · by_cases second : place = j
    · rw [second, Equiv.swap_apply_right, getElem?_swap_right insideI insideJ]
    · rw [Equiv.swap_apply_of_ne_of_ne first second,
        getElem?_swap_of_ne (Ne.symm first) (Ne.symm second)]

/-- Where the exchanges of a whole shuffle lead each place, those for earlier places coming first. -/
def exchanges (pick : Nat → Nat) : Nat → Equiv.Perm Nat
  | 0 => 1
  | position + 1 => Equiv.swap (position + 1) (pick (position + 1)) * exchanges pick position

variable (earlier : Earlier pick)
include earlier

/-- A whole shuffle reads every place where its exchanges lead. -/
theorem getElem?_shuffle {items : List α} (inside : position < items.length) (place : Nat) :
    (shuffle pick 0 position items)[place]? = items[exchanges pick position place]? := by
  -- The first step of the shuffle is the last of the exchanges.
  induction position generalizing items with
  | zero => rfl
  | succ position ih =>
    have before := earlier (position + 1) (by omega)
    have long := (swap_perm items (position + 1) (pick (position + 1))).length_eq
    rw [shuffle, if_neg (by omega), ih (by omega), getElem?_swap inside (by omega)]
    rfl

/-- Exchanges lead no place beyond them anywhere else. -/
theorem exchanges_of_lt {place : Nat} (beyond : position < place) :
    exchanges pick position place = place := by
  -- By induction on the exchanges, all of which are between earlier places.
  induction position with
  | zero => rfl
  | succ position ih =>
    have before := earlier (position + 1) (by omega)
    rw [exchanges, Equiv.Perm.mul_apply, ih (by omega),
      Equiv.swap_apply_of_ne_of_ne (by omega) (by omega)]

/-- All places up to the last one that is exchanged are in one cycle. -/
theorem sameCycle_exchanges {place : Nat} (within : place ≤ position) :
    (exchanges pick position).SameCycle place 0 := by
  -- The induction is on the last place, which each step puts into the cycle of those before it.
  induction position generalizing place with
  | zero => rw [Nat.le_zero.mp within]
  | succ position ih =>
    have before := earlier (position + 1) (by omega)
    have still : exchanges pick position (position + 1) = position + 1 :=
      exchanges_of_lt earlier (by omega)
    have kept {place : Nat} (old : place ≤ position) :
        (exchanges pick (position + 1)).SameCycle place 0 :=
      sameCycle_of_steps (sameCycle_swap_mul still) (ih old)
    rcases Nat.lt_or_ge position place with last | old
    · -- The last place leads to the one that it is exchanged with.
      have same : place = position + 1 := by omega
      subst same
      have leads : exchanges pick (position + 1) (position + 1) = pick (position + 1) := by
        rw [exchanges, Equiv.Perm.mul_apply, still, Equiv.swap_apply_left]
      rw [← Equiv.Perm.sameCycle_apply_left, leads]
      exact kept (by omega)
    · exact kept old

/-- The exchanges of a whole shuffle lead places inside a list to places inside it. -/
theorem exchanges_lt_iff {size place : Nat} (whole : position + 1 = size) :
    exchanges pick position place < size ↔ place < size := by
  constructor
  · intro inside
    by_contra beyond
    have fixed := exchanges_of_lt earlier (show position < place by omega)
    omega
  · intro inside
    by_contra beyond
    -- What is led beyond the list would have been there before.
    have fixed := exchanges_of_lt earlier (show position < exchanges pick position place by omega)
    have same := (exchanges pick position).injective fixed
    omega

/-- The places of a list that a whole shuffle reads: they are led to one another in a single cycle. -/
theorem exists_cycle {size : Nat} (several : 2 ≤ size) : ∃ places : Equiv.Perm (Fin size),
    places.cycleType = {size} ∧ (∀ place, places place ≠ place) ∧
      ∀ place : Fin size, (places place : Nat) = exchanges pick (size - 1) place := by
  have inside (place : Nat) : exchanges pick (size - 1) place < size ↔ place < size :=
    exchanges_lt_iff earlier (by omega)
  let places : Equiv.Perm (Fin size) :=
    { toFun place := ⟨exchanges pick (size - 1) place, (inside place).mpr place.isLt⟩
      invFun place := ⟨(exchanges pick (size - 1)).symm place, by
        rw [← inside, Equiv.apply_symm_apply]
        exact place.isLt⟩
      left_inv place := by simp
      right_inv place := by simp }
  -- Beyond the list nothing is exchanged, so nothing is lost by looking at its places alone.
  have extended : places.extendDomain Fin.equivSubtype = exchanges pick (size - 1) := by
    ext place
    by_cases within : place < size
    · rw [Equiv.Perm.extendDomain_apply_subtype (p := (· < size)) _ _ within]
      rfl
    · rw [Equiv.Perm.extendDomain_apply_not_subtype (p := (· < size)) _ _ within,
        exchanges_of_lt earlier (by omega)]
  have single (here there : Fin size) : places.SameCycle here there := by
    rw [← Equiv.Perm.sameCycle_extendDomain (f := Fin.equivSubtype), extended]
    have first := sameCycle_exchanges earlier (show (here : Nat) ≤ size - 1 by omega)
    have second := sameCycle_exchanges earlier (show (there : Nat) ≤ size - 1 by omega)
    exact first.trans second.symm
  have moves (place : Fin size) : places place ≠ place := by
    intro fixed
    -- A place that stayed where it is would be alone in its cycle.
    have one := (single place ⟨0, by omega⟩).eq_of_left fixed
    have two := (single place ⟨1, by omega⟩).eq_of_left fixed
    exact absurd (Fin.val_eq_of_eq (one.symm.trans two)) Nat.zero_ne_one
  have cycle : places.IsCycle := ⟨⟨0, by omega⟩, moves _, fun there _ => single _ there⟩
  have whole : places.support = Finset.univ := by
    rw [Finset.eq_univ_iff_forall]
    exact fun place => Equiv.Perm.mem_support.mpr (moves place)
  refine ⟨places, ?_, moves, fun _ => rfl⟩
  rw [cycle.cycleType, whole, Finset.card_univ, Fintype.card_fin]

omit earlier in
/--
A full sample leads its places around in a single cycle.

Each place of it has the item of another place, and going on from place to place in this way passes
through all of them before it comes back.
-/
theorem sample_full_cycle (trial : Trial) (salt : Value) {choices : List α}
    (several : 2 ≤ choices.length) {draws : Option Number}
    (accepted : ∀ number, draws = some number →
      number.Fits ∧ Number.atMost (.int choices.length) number = true) :
    ∃ places : Equiv.Perm (Fin choices.length),
      places.cycleType = {choices.length} ∧ (∀ place, places place ≠ place) ∧
      trial.sample choices draws salt = .ok (List.ofFn fun place => choices[places place]) := by
  have counts : Succeeds (drawCount choices.length draws) := by
    refine succeeds_drawCount.mpr fun number given => ?_
    obtain ⟨fits, enough⟩ := accepted number given
    exact ⟨fits, (Number.not_isNaN_of_atMost enough).2⟩
  obtain ⟨count, counted⟩ := counts
  have everything := drawnLength_of_all fun number given => (accepted number given).2
  have earlier := trial.earlier_picks salt
  obtain ⟨places, cycle, moves, leads⟩ := exists_cycle earlier several
  refine ⟨places, cycle, moves, ?_⟩
  -- With everything drawn, the shuffle goes all the way and nothing is left out.
  rw [sample_of_drawCount counted, everything, drawnBy, Nat.sub_self, List.drop_zero,
    Except.ok.injEq]
  refine List.ext_getElem? fun place => ?_
  rw [getElem?_shuffle earlier (by omega), List.getElem?_ofFn]
  split
  · next inside =>
    have within := (exchanges_lt_iff earlier (show choices.length - 1 + 1 = _ by omega)).mpr inside
    rw [List.getElem?_eq_getElem within]
    simp only [Fin.getElem_fin, leads]
  · next outside =>
    have beyond := exchanges_of_lt earlier (show choices.length - 1 < place by omega)
    rw [beyond, List.getElem?_eq_none (by omega)]

omit earlier in
/-- Three and a half draws of three choices lead the places around one after the other. -/
theorem sample_full_cycle_three :
    let trial := Trial.start "exp" .default (.ofBase .empty)
    let choices : List Value := [.str "a", .str "b", .str "c"]
    let draws : Number := .float (.ofQuotient 7 2)
    2 ≤ choices.length ∧ draws.Fits ∧ Number.atMost (.int choices.length) draws = true ∧
      trial.sample choices (some draws) (.str "salt") = .ok [.str "c", .str "a", .str "b"] ∧
      ∃ places : Equiv.Perm (Fin choices.length), places.cycleType = {choices.length} ∧
        (∀ place, places place ≠ place) ∧
        trial.sample choices (some draws) (.str "salt") =
          .ok (List.ofFn fun place => choices[places place]) := by
  -- Three and a half draws are more than three choices, so all places are drawn.
  intro trial choices draws
  have several : 2 ≤ choices.length := by decide
  have enough : Number.atMost (.int choices.length) draws = true := by decide +kernel
  have accepted : ∀ number, some draws = some number →
      number.Fits ∧ Number.atMost (.int choices.length) number = true := by
    intro number same
    cases same
    exact ⟨trivial, enough⟩
  exact ⟨several, trivial, enough, by decide +kernel,
    sample_full_cycle trial (.str "salt") several accepted⟩

end TrialScript.Trial

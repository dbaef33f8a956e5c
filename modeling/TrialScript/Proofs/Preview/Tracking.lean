import TrialScript.Proofs.Description.Describes
import TrialScript.Proofs.Evaluation.Frame
import TrialScript.Proofs.Preview.Guards

/-! Tracking: a survey stays ahead of a run when its descriptions fit the variables after every step. -/

namespace TrialScript

/-- A proper description that describes a value. -/
def Description.Fits (description : Description) (value : Value) : Prop :=
  description.Proper ∧ description.describes value = true

/-- The absent value fits every proper description. -/
theorem Description.Proper.fits_null {description : Description} (proper : description.Proper) :
    description.Fits .null :=
  ⟨proper, describes_null description⟩

namespace Store

/-- Where alternatives are only added, what was described before is described after. -/
theorem Grows.describes {before after : Store Description} (grows : before.Grows after)
    {name : String} {narrow : Description} {value : Value}
    (known : before.lookup name = some narrow)
    (described : narrow.describes value = true) :
    ∃ wide, after.lookup name = some wide ∧ wide.describes value = true := by
  -- The wider description has every alternative of the narrower one.
  obtain ⟨wide, found, covers⟩ := grows name narrow known
  exact ⟨wide, found, covers.describes described⟩

/-- Descriptions are proper, and every variable has one that describes its value. -/
structure Fits (symbols : Store Description) (held : Store Value) : Prop where
  proper : ∀ name description, symbols.lookup name = some description → description.Proper
  describes : ∀ name value, held.lookup name = some value →
    ∃ description, symbols.lookup name = some description ∧ description.describes value = true

namespace Fits

variable {symbols : Store Description} {held : Store Value} {name : String}

/-- What is known of a name is proper, also where that is nothing. -/
theorem proper_get (fit : symbols.Fits held) (name : String) :
    (symbols.get name .unknown).Proper := by
  -- What has no description counts as unknown, which is proper.
  unfold Store.get
  cases known : symbols.lookup name with
  | none => exact .atom trivial
  | some description => exact fit.proper name description known

/-- The value of a name fits what is known of it, also where it has none. -/
theorem fits_get (fit : symbols.Fits held) (name : String) :
    (symbols.get name .unknown).Fits (held.get name .null) := by
  -- A name without a value counts as null, which everything describes.
  refine ⟨fit.proper_get name, ?_⟩
  cases found : held.lookup name with
  | none => simp [Store.get, found]
  | some value =>
    obtain ⟨description, known, describes⟩ := fit.describes name value found
    simpa [Store.get, found, known] using describes

/-- A new layer changes no fit. -/
theorem push (fit : symbols.Fits held) : symbols.push.Fits held := by
  -- The new layer mentions no name.
  constructor
  · intro name description known
    exact fit.proper name description (by rwa [lookup_push] at known)
  · intro name value found
    rw [lookup_push]
    exact fit.describes name value found

/-- Assigning a description along with a value that fits it keeps the fit. -/
theorem assign (fit : symbols.Fits held) {description : Description} {value : Value}
    (fits : description.Fits value) :
    (symbols.assign name description).Fits (held.assign name value) := by
  -- The assigned name has the new pair, and every other name keeps its own.
  constructor
  · intro other known found
    rw [lookup_assign] at found
    split at found
    · cases found
      exact fits.1
    · exact fit.proper other known found
  · intro other value' found
    rw [lookup_assign] at found ⊢
    by_cases same : name = other
    · rw [if_pos same] at found ⊢
      cases found
      exact ⟨description, rfl, fits.2⟩
    · rw [if_neg same] at found ⊢
      exact fit.describes other value' found

/-- Where alternatives are only added, variables are described as before. -/
theorem grow (fit : symbols.Fits held) {after : Store Description} (grows : symbols.Grows after)
    (proper : ∀ name description, after.lookup name = some description → description.Proper) :
    after.Fits held := by
  refine ⟨proper, fun name value found => ?_⟩
  obtain ⟨narrow, known, described⟩ := fit.describes name value found
  exact grows.describes known described

end Fits
end Store

variable {α β γ δ : Type}

/-- A run leaves every variable as it is. -/
def Still (run : Run α) : Prop :=
  Keeps (fun before after : Trial => after.variables = before.variables) run

namespace Still

/-- What only looks at values changes no variable. -/
theorem lift (result : Except Fault α) : Still (liftM result : Run α) :=
  fun _ => rfl

/-- Two computations in a row that change no variable change none together. -/
theorem bind {run : Run α} {rest : α → Run β} (first : Still run)
    (next : ∀ found, Still (rest found)) : Still (run >>= rest) :=
  Keeps.bind (fun earlier later => later.trans earlier) first next

/-- A script that assigns nothing changes no variable. -/
theorem evaluate {tree : Tree} (silent : tree.assigned = []) : Still (evaluate tree) :=
  variables_evaluate silent

end Still

/-- A survey stays ahead of a run: the descriptions after it fit what the run leaves behind and gives. -/
structure Ahead (before after : Store Description) (fits : β → Prop)
    (outcome : Except Fault β × Trial) : Prop where
  grows : before.Grows after
  fit : after.Fits outcome.2.variables
  possible : ∃ value, fits value
  fitting : ∀ value, outcome.1 = .ok value → fits value

/-- From descriptions that fit the variables a survey has a result and stays ahead of a run. -/
def Tracks (survey : Survey α) (run : Run β) (fits : α → β → Prop) : Prop :=
  ∀ (before : Store Description) (trial : Trial), before.Fits trial.variables →
    ∃ found after, survey.run before = (.ok found, after) ∧
      Ahead before after (fits found) (run.run trial)

namespace Tracks

variable {survey : Survey α} {run : Run β} {fits : α → β → Prop}

/-- A run that changes no variable is tracked by a description of all its results. -/
theorem of_still {found : α} (still : Still run) (possible : ∃ value, fits found value)
    (fitting : ∀ trial value, (run.run trial).1 = .ok value → fits found value) :
    Tracks (pure found) run fits := by
  -- The variables are those from before, and so are the descriptions.
  intro before trial fit
  have kept : (run.run trial).2.variables = trial.variables := still trial
  exact ⟨found, before, rfl, .refl before, kept ▸ fit, possible, fitting trial⟩

/-- A result that needs no run is tracked by a description of it. -/
theorem pure {found : α} {value : β} (fitting : fits found value) :
    Tracks (pure found) (pure value) fits :=
  of_still (.lift (.ok value)) ⟨value, fitting⟩ fun _ _ same => by
    cases same
    exact fitting

/-- A survey and a run that are tracked step by step are tracked together. -/
theorem bind {restSurvey : α → Survey γ} {restRun : β → Run δ} {fitsAfter : γ → δ → Prop}
    (first : Tracks survey run fits)
    (next : ∀ found value, fits found value → Tracks (restSurvey found) (restRun value) fitsAfter) :
    Tracks (survey >>= restSurvey) (run >>= restRun) fitsAfter := by
  intro before trial fit
  obtain ⟨found, middle, ran, ahead⟩ := first before trial fit
  rw [Stateful.run_bind, Stateful.run_bind, ran]
  cases result : run.run trial with
  | mk outcome later =>
    rw [result] at ahead
    cases outcome with
    | ok value =>
      obtain ⟨last, after, ranRest, ahead'⟩ :=
        next found value (ahead.fitting value rfl) middle later ahead.fit
      exact ⟨last, after, ranRest, { ahead' with grows := ahead.grows.trans ahead'.grows }⟩
    | error fault =>
      -- The run has stopped, and the rest of the survey goes on as for some possible value.
      obtain ⟨value, possible⟩ := ahead.possible
      obtain ⟨last, after, ranRest, ahead'⟩ := next found value possible middle later ahead.fit
      exact ⟨last, after, ranRest, ahead.grows.trans ahead'.grows,
        ahead.fit.grow ahead'.grows ahead'.fit.proper, ahead'.possible, by simp⟩

/-- What follows from a fit may be said instead of it. -/
theorem mono {wider : α → β → Prop} (tracks : Tracks survey run fits)
    (widen : ∀ found value, fits found value → wider found value) : Tracks survey run wider := by
  -- Nothing changes but what is said of the result.
  intro before trial fit
  obtain ⟨found, after, ran, ahead⟩ := tracks before trial fit
  have possible := ahead.possible.imp fun value => widen found value
  refine ⟨found, after, ran, ahead.grows, ahead.fit, possible, fun value gave => ?_⟩
  exact widen found value (ahead.fitting value gave)

/-- What follows from a fit may be said of a result that is made from the one of a survey. -/
theorem map {change : α → γ} {wider : γ → β → Prop} (tracks : Tracks survey run fits)
    (widen : ∀ found value, fits found value → wider (change found) value) :
    Tracks (do return change (← survey)) run wider := by
  -- The change of the result leaves the descriptions as they are.
  intro before trial fit
  obtain ⟨found, after, ran, ahead⟩ := tracks before trial fit
  have possible := ahead.possible.imp fun value => widen found value
  refine ⟨change found, after, ?_, ahead.grows, ahead.fit, possible, fun value gave => ?_⟩
  · rw [Stateful.run_bind, ran]
    rfl
  · exact widen found value (ahead.fitting value gave)

/-- A survey also tracks a run that does nothing but give a result which fits in any case. -/
theorem idle {other : γ} {fitsAfter : α → γ → Prop} (tracks : Tracks survey run fits)
    (harmless : ∀ found value, fits found value → fitsAfter found other) :
    Tracks survey (Pure.pure other) fitsAfter := by
  -- The variables stay as they were, and the survey only adds alternatives.
  intro before trial fit
  obtain ⟨found, after, ran, ahead⟩ := tracks before trial fit
  have fitting : fitsAfter found other := ahead.possible.elim fun value => harmless found value
  refine ⟨found, after, ran, ahead.grows, fit.grow ahead.grows ahead.fit.proper,
    ⟨other, fitting⟩, ?_⟩
  rintro value ⟨⟩
  exact fitting

/-- A step of the run that changes no variable may come before what is tracked. -/
theorem after_still {step : Run γ} {rest : γ → Run β} {good : γ → Prop} (still : Still step)
    (possible : ∃ found, good found)
    (gives : ∀ trial found, (step.run trial).1 = .ok found → good found)
    (next : ∀ found, good found → Tracks survey (rest found) fits) :
    Tracks survey (step >>= rest) fits := by
  intro before trial fit
  have kept := still trial
  have isGood := gives trial
  rw [Stateful.run_bind]
  cases result : step.run trial with
  | mk outcome later =>
    rw [result] at kept isGood
    have fitLater : before.Fits later.variables := kept ▸ fit
    cases outcome with
    | ok found => exact next found (isGood found rfl) before later fitLater
    | error fault =>
      -- The run has stopped, and the survey goes on as for some good result of the step.
      obtain ⟨found, isGood⟩ := possible
      obtain ⟨last, after, ran, ahead⟩ := next found isGood before later fitLater
      exact ⟨last, after, ran, ahead.grows, fitLater.grow ahead.grows ahead.fit.proper,
        ahead.possible, by simp⟩

/-- A step that changes no variable may come before what is tracked for all of its results. -/
theorem after_any [Nonempty γ] {step : Run γ} {rest : γ → Run β} (still : Still step)
    (next : ∀ found, Tracks survey (rest found) fits) : Tracks survey (step >>= rest) fits :=
  after_still still ⟨Classical.ofNonempty, trivial⟩ (fun _ _ _ => trivial) fun found _ => next found

/-- What is tracked is still tracked when the run gives some harmless result once the trial has returned. -/
theorem whileRunning {other : β} (tracks : Tracks survey run fits)
    (harmless : ∀ found value, fits found value → fits found other) :
    Tracks survey (do if (← get).returned then return other else run) fits := by
  -- Both sides of the latch are tracked by the same survey.
  intro before trial fit
  rw [Stateful.run_bind]
  by_cases returned : trial.returned = true
  · simpa [returned] using tracks.idle harmless before trial fit
  · simpa [returned] using tracks before trial fit

/-- Once the trial has returned a script gives null, which every proper description fits. -/
theorem unlessReturned {survey : Survey Description} {run : Run Value}
    (tracks : Tracks survey run Description.Fits) :
    Tracks survey (unlessReturned run) Description.Fits :=
  tracks.whileRunning fun _ _ fits => fits.1.fits_null

end Tracks
end TrialScript

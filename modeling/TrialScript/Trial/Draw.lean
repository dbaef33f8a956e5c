import TrialScript.Position
import TrialScript.Trial.Basic

/-! Draws: outcomes that look random and depend only on the trial and a salt. -/

namespace TrialScript.Trial

variable {α : Type}

/-- A number between zero and one, both ends included. -/
def fraction (trial : Trial) (salt : Value) : Except Fault Binary64 :=
  Number.quotient (trial.hash salt) trial.policy.maxHash

/-- A number at a whole distance from the lower bound. -/
def integerBetween (trial : Trial) (low high : Number) (salt : Value) : Except Fault Number :=
  if high.less low then .error (.invertedBounds (.num low) (.num high))
  else do
    let width ← (← high.sub low).add (.int 1)
    low.add (← Number.reduce (trial.hash salt) width)

/-- A position between zero and the last one. -/
def position (trial : Trial) (last : Int) (salt : Value) : Except Fault Int := do
  (← trial.integerBetween (.int 0) (.int last) salt).whole

/-- A number between two bounds. -/
def floatBetween (trial : Trial) (low high : Number) (salt : Value) : Except Fault Number := do
  let drawn ← trial.fraction salt
  let width ← high.sub low
  low.add (← Number.mul (.float drawn) width)

/-- A part of a whole width, to the nearest integer with ties going to the even one. -/
def share (part : Binary64) (width : Int) : Int :=
  let nearest : Int := Binary64.nearestEven (width.natAbs * part.magnitude) Binary64.unitsPerOne
  if width < 0 then -nearest else nearest

/-- A moment between two moments, to the microsecond and by the clock of the first one. -/
def momentBetween (trial : Trial) (low high : DateTime) (salt : Value) :
    Except Fault DateTime := do
  let drawn ← trial.fraction salt
  match low.until? high with
  | some width =>
    let count := (low.microsecondsBefore + share drawn width).toNat
    -- The other clock may already show a year that this one has not come to.
    if DateTime.lastCount ≤ count then throw .overflow
    return .ofMicrosecondsBefore low.zone count
  | none => throw .wrongKind

/-- A day between two days, on which a moment between them falls. -/
def dateBetween (trial : Trial) (low high : Date) (salt : Value) : Except Fault Date := do
  return (← trial.momentBetween ⟨low, 0, 0, 0, 0, none⟩ ⟨high, 0, 0, 0, 0, none⟩ salt).date

/-- One of the choices, each equally likely. -/
def uniformChoice (trial : Trial) (choices : List α) (salt : Value) : Except Fault α := do
  if choices.isEmpty then throw (.noChoices "uniformChoice")
  elementAt choices (← trial.position (choices.length - 1) salt)

/-- The totals of weights up to each one, starting from a total so far. -/
def totalsFrom (total : Binary64) : List Binary64 → List Binary64
  | [] => []
  | weight :: rest => total.add weight :: totalsFrom (total.add weight) rest

/-- The totals of weights up to each one. -/
def totals : List Binary64 → List Binary64
  | [] => []
  | weight :: rest => weight :: totalsFrom weight rest

/-- The first choice whose total reaches a drawn share of the last total, if one does. -/
def firstReaching? (trial : Trial) (choices : List α) (totals : List Binary64) (salt : Value) :
    Except Fault (Option α) := do
  let last ← elementAt totals (-1)
  let target ← trial.floatBetween (.int 0) (.float last) salt
  return ((choices.zip totals).find? fun (_, total) => target.atMost (.float total)).map Prod.fst

/-- Demands at least one choice, and one weight for each. -/
def admitWeights {β : Type} (choices : List α) (weights : List β) : Except Fault Unit :=
  if choices.isEmpty then .error (.noChoices "weightedChoice")
  else if weights.length ≠ choices.length then
    .error (.weightCount weights.length choices.length)
  else .ok ()

/-- One of the choices, each as likely as its share of the weights. -/
def weightedChoice (trial : Trial) (choices : List α) (weights : List Number) (salt : Value) :
    Except Fault α := do
  admitWeights choices weights
  match ← trial.firstReaching? choices (totals (← weights.mapM Number.toFloat)) salt with
  | some choice => return choice
  -- Where rounding leaves the target above every total, the last choice is taken.
  | none => elementAt choices (-1)

/-- The list with the elements at two positions exchanged. -/
def exchange (items : List α) (i j : Int) : Except Fault (List α) := do
  let second ← elementAt items j
  let first ← elementAt items i
  replaceAt (← replaceAt items i second) j first

/-- Exchanges the elements at every position above a stop with ones at earlier positions. -/
def exchangeDown (pick : Nat → Except Fault Int) (stop : Nat) : Nat → List α →
    Except Fault (List α)
  | 0, items => .ok items
  | position + 1, items =>
    if position + 1 ≤ stop then .ok items
    else do
      let other ← pick (position + 1)
      exchangeDown pick stop position (← exchange items (position + 1 : Nat) other)

/-- How many items a sample takes, which may be fewer than none or more than all. -/
def drawCount (size : Nat) : Option Number → Except Fault Int
  | none => .ok size
  | some draws => do
    if ← draws.undefined then throw .undefinedDraws
    match draws with
    | .int count => return count
    | .float (.infinite negative) => return if negative then 0 else size
    | .float count => return count.truncate

/-- Some of the choices without repetition, shuffled; all of them where no count is given. -/
def sample (trial : Trial) (choices : List α) (draws : Option Number) (salt : Value) :
    Except Fault (List α) := do
  let size := choices.length
  let stop := ((size : Int) - (← drawCount size draws)).toNat
  let pick (i : Nat) := trial.position (i - 1) (.list [salt, .int i])
  return (← exchangeDown pick stop (size - 1) choices).drop stop

/-- Whether a number is a probability. -/
def isProbability (p : Number) : Bool :=
  Number.atMost (.int 0) p && p.atMost (.int 1)

/-- Whether a draw for a salt falls under a probability. -/
def occurs (trial : Trial) (p : Number) (salt : Value) : Except Fault Bool := do
  return Number.less (.float (← trial.fraction salt)) p

/-- The items kept with a probability, each by its own draw, numbered from a given one on. -/
def filterFrom (trial : Trial) (p : Number) (salt : Value) (index : Nat) :
    List α → Except Fault (List α)
  | [] => return []
  | item :: rest => do
    let kept ← trial.occurs p (.list [salt, .int index])
    let others ← filterFrom trial p salt (index + 1) rest
    return if kept then item :: others else others

/-- Demands a probability. -/
def admitProbability (p : Number) : Except Fault Unit :=
  if isProbability p then .ok () else .error (.badProbability (.num p))

/-- The choices that a draw of their own keeps, in order. -/
def bernoulliFilter (trial : Trial) (choices : List α) (p : Number) (salt : Value) :
    Except Fault (List α) := do
  admitProbability p
  if choices.isEmpty then throw (.noChoices "bernoulliFilter")
  trial.filterFrom p salt 0 choices

/-- One with a given probability, and zero otherwise. -/
def bernoulliTrial (trial : Trial) (p : Number) (salt : Value) : Except Fault Int := do
  admitProbability p
  return if ← trial.occurs p salt then 1 else 0

end TrialScript.Trial

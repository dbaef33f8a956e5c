import TrialScript.Report
import TrialScript.Trial.Request
import TrialScript.Proofs.Evaluation.Agreement
import TrialScript.Proofs.Evaluation.Effects
import TrialScript.Proofs.Evaluation.Latch
import TrialScript.Proofs.Preview.Branches
import TrialScript.Proofs.Evaluation.Inside
import TrialScript.Proofs.Preview.Names
import TrialScript.Proofs.Value.Order
import TrialScript.Proofs.Description.Cover
import TrialScript.Proofs.Description.Joining
import TrialScript.Proofs.Preview.Guards
import TrialScript.Proofs.Value.Regular
import TrialScript.Proofs.Description.Describes
import TrialScript.Proofs.Evaluation.Frame
import TrialScript.Proofs.Preview.Tracking
import TrialScript.Proofs.Trial.Draws
import TrialScript.Proofs.Trial.Sampling
import TrialScript.Proofs.Trial.Cycle
import TrialScript.Proofs.Preview.Expressions
import TrialScript.Proofs.Preview.Soundness
import TrialScript.Proofs.Faults
import TrialScript.Proofs.Numeric.Rounding
import TrialScript.Proofs.Evaluation.Positions
import TrialScript.Proofs.Evaluation.Faults
import TrialScript.Proofs.Description.Outcomes
import TrialScript.Proofs.Tree.Grammar
import TrialScript.Proofs.Tree.Reading
import TrialScript.Proofs.Preview.Faults
import TrialScript.Proofs.Tree.Parsing
import TrialScript.Proofs.Evaluation.Disabled
import TrialScript.Proofs.Tree.RoundTrip
import TrialScript.Proofs.Evaluation.Commuting
import TrialScript.Proofs.Evaluation.Layering
import TrialScript.Proofs.Store.History
import TrialScript.Proofs.Salt
import TrialScript.Proofs.Preview.Exactness
import TrialScript.Proofs.Preview.Normal
import TrialScript.Proofs.Evaluation.Division
import TrialScript.Proofs.Preview.Reckoning
import TrialScript.Proofs.Store.Sorted
import TrialScript.Proofs.Value.Reordered
import TrialScript.Proofs.Tree.Ordered
import TrialScript.Proofs.Identity
import TrialScript.Proofs.Numeric.Interval
import TrialScript.Proofs.Numeric.Shortest
import TrialScript.Proofs.Text.Digits
import TrialScript.Proofs.Json.Numbers
import TrialScript.Proofs.Json.Strings
import TrialScript.Proofs.Json.RoundTrip
import TrialScript.Proofs.Tree.Canonical
import TrialScript.Proofs.Policy
import TrialScript.Proofs.Numeric.Whole
import TrialScript.Proofs.Numeric.Integral
import TrialScript.Proofs.Numeric.Halves
import TrialScript.Proofs.Trial.Unit
import TrialScript.Proofs.Trial.Bernoulli
import TrialScript.Proofs.Trial.Weighted
import TrialScript.Proofs.Description.Absorbing
import TrialScript.Proofs.Description.Intervals
import TrialScript.Proofs.Description.Kinds
import TrialScript.Proofs.Trial.Integers
import TrialScript.Proofs.Trial.Rollout
import TrialScript.Proofs.Preview.Reached
import TrialScript.Proofs.Preview.Stopped
import TrialScript.Proofs.Numeric.Monotone
import TrialScript.Proofs.Numeric.Ascending
import TrialScript.Proofs.Description.Upright
import TrialScript.Proofs.Preview.Upright
import TrialScript.Proofs.Trial.Collapse
import TrialScript.Proofs.Tree.Composition
import TrialScript.Proofs.Description.Literals
import TrialScript.Proofs.Preview.Lengths

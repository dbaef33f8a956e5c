import TrialScript.Policy
import TrialScript.Proofs.Tree.Ordered

/-! Identities: the digests of salts and the fingerprints of scripts, which ignore the order of fields. -/

namespace TrialScript

/-- The text that is digested for a salt does not show in which order its fields came. -/
theorem Settings.input_of_reordered {left right : Value} (alike : left.ordered = right.ordered)
    (settings : Settings) (name : Value) : settings.input name left = settings.input name right := by
  -- The components of the name and the salt count by their texts alone.
  have joined : ∀ separator, Salt.joined separator name left = Salt.joined separator name right := by
    intro separator
    rw [Salt.joined, Salt.joined, ← Salt.texts_ordered (.list [name, left]),
      ← Salt.texts_ordered (.list [name, right])]
    simp only [Value.ordered, Value.orderedItems, alike]
  unfold Settings.input
  split
  · rw [joined]
  · rfl

/-- Scripts that differ in order only are both parsed, into scripts that do so, or both refused. -/
theorem Tree.parse_of_reordered {left right : Value} (alike : left.ordered = right.ordered) :
    (∃ tree tree', parse left = .ok tree ∧ parse right = .ok tree' ∧ tree.Reordered tree') ∨
      ∃ fault fault', parse left = .error fault ∧ parse right = .error fault' := by
  have written : Written left ↔ Written right := by
    rw [← written_ordered left, alike, written_ordered]
  cases parsed : parse left with
  | ok tree =>
    -- The other script is written as well, and both are read as one tree in order.
    obtain ⟨tree', parsed'⟩ := parse_of_written (written.mp (parse_eq_ok_iff.mp parsed).1)
    have same := parse_ordered parsed
    rw [alike, parse_ordered parsed'] at same
    exact .inl ⟨tree, tree', rfl, parsed', (Except.ok.inj same).symm⟩
  | error fault =>
    cases parsed' : parse right with
    | error fault' => exact .inr ⟨fault, fault', rfl, rfl⟩
    | ok tree' =>
      obtain ⟨tree, accepted⟩ := parse_of_written (written.mpr (parse_eq_ok_iff.mp parsed').1)
      rw [parsed] at accepted
      cases accepted

/--
The order of fields does not matter to any identity.

Values that differ only in the order in which mappings name their fields, at any depth, are
digested as the same text under every name and every policy. As scripts they are both refused, or
both parsed into scripts with one canonical text and the same fingerprint at every length.
-/
theorem identities_ignore_order {left right : Value} (keyed : left.Keyed) (keyed' : right.Keyed)
    (alike : left.Reordered right) :
    (∀ (settings : Settings) (name : Value), settings.input name left = settings.input name right) ∧
    (∀ (policy : Policy) (name : String), policy.input name left = policy.input name right) ∧
    ((∃ tree tree', Tree.parse left = .ok tree ∧ Tree.parse right = .ok tree' ∧
        canonicalText tree.toValue = canonicalText tree'.toValue ∧
        ∀ length, tree.fingerprint length = tree'.fingerprint length) ∨
      ∃ fault fault', Tree.parse left = .error fault ∧ Tree.parse right = .error fault') := by
  have same := alike.ordered_eq keyed keyed'
  have digested := Settings.input_of_reordered same
  refine ⟨digested, fun policy name => ?_, ?_⟩
  · -- A policy digests what its fields digest before they are checked.
    exact Except.ok.inj (digested ⟨.str policy.separator, .null⟩ (.str name))
  · rcases Tree.parse_of_reordered same with ⟨tree, tree', parsed, parsed', together⟩ | refused
    · have text := together.canonicalText_eq
      refine .inl ⟨tree, tree', parsed, parsed', text, fun length => ?_⟩
      simp only [Tree.fingerprint, Tree.digest, text]
    · exact .inr refused

/-- A mapping in a list in a literal, with its fields either way around. -/
theorem identities_ignore_order_literal :
    let fields : Table Value := [("b", .int 1), ("a", .str "x")]
    let left : Value := .dict [("op", .str "literal"), ("value", .list [.dict fields])]
    let right : Value := .dict [("value", .list [.dict fields.reverse]), ("op", .str "literal")]
    left.Keyed ∧ right.Keyed ∧ left.Reordered right ∧ left ≠ right ∧
      Policy.default.input "exp" left = Policy.default.input "exp" right ∧
      Tree.parse left = .ok (.literal (.list [.dict fields])) ∧
      Tree.parse right = .ok (.literal (.list [.dict fields.reverse])) ∧
      ∀ length, (Tree.literal (.list [.dict fields])).fingerprint length =
        (Tree.literal (.list [.dict fields.reverse])).fingerprint length := by
  intro fields left right
  have keyedList : (Value.list [.dict fields]).Keyed :=
    .list (List.forall_mem_singleton.mpr (.dict (by decide) (by simp [fields, Value.Keyed.scalar])))
  have keyedReverse : (Value.list [.dict fields.reverse]).Keyed :=
    .list (List.forall_mem_singleton.mpr (.dict (by decide) (by simp [fields, Value.Keyed.scalar])))
  have keyed : left.Keyed := .dict (by decide) (by simp [Value.Keyed.scalar, keyedList])
  have keyed' : right.Keyed := .dict (by decide) (by simp [Value.Keyed.scalar, keyedReverse])
  -- The orders of the two mappings are compared by evaluation.
  have alike : left.Reordered right := (Value.reordered_iff keyed keyed').mpr (by decide +kernel)
  have parsed : Tree.parse left = .ok (.literal (.list [.dict fields])) := rfl
  have parsed' : Tree.parse right = .ok (.literal (.list [.dict fields.reverse])) := rfl
  -- Both scripts are accepted, so the case in which neither is does not arise.
  obtain ⟨-, digested, both | neither⟩ := identities_ignore_order keyed keyed' alike
  · obtain ⟨tree, tree', given, given', -, prints⟩ := both
    rw [parsed] at given
    rw [parsed'] at given'
    cases given
    cases given'
    exact ⟨keyed, keyed', alike, by decide, digested .default "exp", parsed, parsed', prints⟩
  · obtain ⟨fault, -, refused, -⟩ := neither
    rw [parsed] at refused
    cases refused

end TrialScript

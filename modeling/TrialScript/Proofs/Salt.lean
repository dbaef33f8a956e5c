import TrialScript.Trial.Basic

/-! Salts: which names and salts are digested as the same text, and which never are. -/

namespace TrialScript

namespace Salt

/-- The components of two rows of items are those of the first, then those of the second. -/
theorem flattenItems_append (row rest : List Value) :
    flattenItems (row ++ rest) = flattenItems row ++ flattenItems rest := by
  induction row with
  | nil => rfl
  | cons item row ih => rw [List.cons_append, flattenItems, flattenItems, ih, List.append_assoc]

/-- Rows of salts that differ only in where lists open and close, empty lists included. -/
inductive Regroups : List Value → List Value → Prop where
  | refl (row : List Value) : Regroups row row
  | symm {row row' : List Value} (same : Regroups row row') : Regroups row' row
  | trans {first second third : List Value} (earlier : Regroups first second)
      (later : Regroups second third) : Regroups first third
  | behind (salt : Value) {row row' : List Value} (same : Regroups row row') :
      Regroups (salt :: row) (salt :: row')
  | opened (items row : List Value) : Regroups (.list items :: row) (items ++ row)

namespace Regroups

/-- The same salts may stand before both rows. -/
theorem append_left {row row' : List Value} (front : List Value) (same : Regroups row row') :
    Regroups (front ++ row) (front ++ row') := by
  induction front with
  | nil => exact same
  | cons salt front ih => exact .behind salt ih

mutual

/-- A salt regroups to its components. -/
theorem flatten (salt : Value) (row : List Value) :
    Regroups (salt :: row) (Salt.flatten salt ++ row) :=
  match salt with
  | .list items => (opened items row).trans (flattenItems items row)
  | .scalar _ | .dict _ | .date _ | .datetime _ => .refl _

/-- Items regroup to their components. -/
theorem flattenItems (items row : List Value) :
    Regroups (items ++ row) (Salt.flattenItems items ++ row) :=
  match items with
  | [] => .refl row
  | item :: rest => by
    rw [Salt.flattenItems, List.append_assoc]
    exact (flatten item (rest ++ row)).trans ((flattenItems rest row).append_left _)

end

/-- Rows regroup to one another exactly when they have the same components in order. -/
theorem iff_flattenItems_eq {row row' : List Value} :
    Regroups row row' ↔ Salt.flattenItems row = Salt.flattenItems row' := by
  constructor
  · intro same
    induction same with
    | refl row => rfl
    | symm _ ih => exact ih.symm
    | trans _ _ ih ih' => exact ih.trans ih'
    | behind salt _ ih => rw [Salt.flattenItems, Salt.flattenItems, ih]
    | opened items row => rw [Salt.flattenItems, Salt.flatten, flattenItems_append]
  · intro same
    -- Both rows regroup to the components that they share.
    have opened := flattenItems row []
    have opened' := flattenItems row' []
    simp only [List.append_nil] at opened opened'
    exact opened.trans (same ▸ opened'.symm)

/-- Salts that regroup to one another have the same components in order. -/
theorem flatten_eq {salt salt' : Value} (same : Regroups [salt] [salt']) :
    Salt.flatten salt = Salt.flatten salt' := by
  simpa [Salt.flattenItems] using iff_flattenItems_eq.mp same

end Regroups

/-- No component text of a salt has a character in it. -/
def Unmarked (mark : Char) (salt : Value) : Prop :=
  ∀ text ∈ texts salt, mark ∉ text.toList

instance (mark : Char) (salt : Value) : Decidable (Unmarked mark salt) :=
  inferInstanceAs (Decidable (∀ text ∈ texts salt, mark ∉ text.toList))

/-- The text of a name stands before those of a salt. -/
theorem texts_pair (name : String) (salt : Value) :
    texts (.list [.str name, salt]) = name :: texts salt := by
  simp [texts, flatten, flattenItems, componentText]

/-- Texts without a mark can be told from the text in which the mark joins them. -/
theorem intercalate_eq_iff {mark : Char} {row row' : List String} (some : row ≠ [])
    (some' : row' ≠ []) (free : ∀ text ∈ row, mark ∉ text.toList)
    (free' : ∀ text ∈ row', mark ∉ text.toList) :
    (String.singleton mark).intercalate row = (String.singleton mark).intercalate row' ↔
      row = row' := by
  -- Splitting at the mark gives the joined texts back.
  have split : ∀ {row : List String}, row ≠ [] → (∀ text ∈ row, mark ∉ text.toList) →
      ((String.singleton mark).intercalate row).toList.splitOn mark = row.map String.toList := by
    intro row some free
    rw [String.toList_intercalate, String.toList_singleton]
    refine List.splitOn_intercalate mark ?_ (by simpa using some)
    intro characters member
    obtain ⟨text, inside, rfl⟩ := List.mem_map.mp member
    exact free text inside
  refine ⟨fun same => ?_, fun same => same ▸ rfl⟩
  have pieces := congrArg (fun text : String => text.toList.splitOn mark) same
  simp only [split some free, split some' free'] at pieces
  exact (List.map_inj_right fun _ _ => String.toList_inj.mp).mp pieces

/-- Names and salts without the separator are joined to one text when their texts are the same. -/
theorem joined_eq_iff {mark : Char} {name name' : String} {salt salt' : Value}
    (free : Unmarked mark (.list [.str name, salt]))
    (free' : Unmarked mark (.list [.str name', salt'])) :
    joined (String.singleton mark) (.str name) salt =
        joined (String.singleton mark) (.str name') salt' ↔
      texts (.list [.str name, salt]) = texts (.list [.str name', salt']) := by
  -- The name is always there, so neither row is empty.
  refine intercalate_eq_iff ?_ ?_ free free' <;> simp [texts_pair]

/-- Regrouping a salt leaves the joined text as it is. -/
theorem Regroups.joined_eq {salt salt' : Value} (same : Regroups [salt] [salt'])
    (separator : String) (name : Value) :
    joined separator name salt = joined separator name salt' := by
  simp only [joined, texts, Salt.flatten, Salt.flattenItems, same.flatten_eq]

end Salt

/--
The digested text tells exactly the component texts.

Where the separator is one character that no component text has, two names and salts are digested
as the same text exactly when their component texts are the same, one by one. Under any separator
a salt may be regrouped without a change to the text, to the number or to any draw of a trial.
-/
theorem Settings.input_tells_texts (settings : Settings) :
    (∀ (mark : Char) (name name' : String) (salt salt' : Value),
      settings.separator = .str (String.singleton mark) →
      Salt.Unmarked mark (.list [.str name, salt]) →
      Salt.Unmarked mark (.list [.str name', salt']) →
        (settings.input (.str name) salt = settings.input (.str name') salt' ↔
          Salt.texts (.list [.str name, salt]) = Salt.texts (.list [.str name', salt']))) ∧
    ∀ (salt salt' : Value), Salt.Regroups [salt] [salt'] →
      (∀ name, settings.input name salt = settings.input name salt') ∧
      (∀ name, settings.seed name salt = settings.seed name salt') ∧
      ∀ trial : Trial, trial.hash salt = trial.hash salt' := by
  constructor
  · intro mark name name' salt salt' single free free'
    simp only [Settings.input, single, Except.ok.injEq]
    exact Salt.joined_eq_iff free free'
  · intro salt salt' same
    have input : ∀ name, settings.input name salt = settings.input name salt' := by
      intro name
      -- A separator that is no text is a fault for both salts.
      simp only [Settings.input, same.joined_eq]
    refine ⟨input, fun name => ?_, fun trial => ?_⟩
    · rw [Settings.seed, Settings.seed, input]
    · rw [Trial.hash, Trial.hash, Policy.seed, Policy.seed, Policy.input, Policy.input,
        same.joined_eq]

/-- Empty components at the end are told apart from none, and empty lists leave no trace. -/
theorem Settings.input_tells_texts_empty :
    let settings : Settings := ⟨.str ":", .int 13⟩
    let salt : Value := .list [.str "user", .list [.list [], .null, .str ""]]
    let regrouped : Value := .list [.list [.str "user", .list []], .null, .list [.str ""]]
    let shorter : Value := .list [.str "user", .null]
    settings.separator = .str (String.singleton ':') ∧
      Salt.Unmarked ':' (.list [.str "exp", salt]) ∧
      Salt.Unmarked ':' (.list [.str "exp", shorter]) ∧
      Salt.Regroups [salt] [regrouped] ∧
      settings.input (.str "exp") salt ≠ settings.input (.str "exp") shorter ∧
      settings.input (.str "exp") salt = settings.input (.str "exp") regrouped := by
  -- Both inputs are free of the separator, and only one of the salts regroups to the other.
  intro settings salt regrouped shorter
  have single : settings.separator = .str (String.singleton ':') := by decide
  have free : Salt.Unmarked ':' (.list [.str "exp", salt]) := by decide
  have free' : Salt.Unmarked ':' (.list [.str "exp", shorter]) := by decide
  have same : Salt.Regroups [salt] [regrouped] := Salt.Regroups.iff_flattenItems_eq.mpr rfl
  obtain ⟨tells, keeps⟩ := settings.input_tells_texts
  refine ⟨single, free, free', same, ?_, (keeps salt regrouped same).1 (.str "exp")⟩
  exact fun equal => absurd ((tells ':' "exp" "exp" salt shorter single free free').mp equal)
    (by decide)

/-- One name is another one with a mark and any further text behind it. -/
def Salt.Extends (mark : Char) (longer name : String) : Prop :=
  ∃ rest, longer = name ++ String.singleton mark ++ rest

namespace Salt

/-- A joined text is the name alone, or the name with a mark and further text behind it. -/
theorem joined_cases (mark : Char) (name : String) (salt : Value) :
    joined (String.singleton mark) (.str name) salt = name ∨
      Extends mark (joined (String.singleton mark) (.str name) salt) name := by
  rw [joined, texts_pair]
  cases texts salt with
  | nil => exact .inl String.intercalate_singleton
  | cons text rest => exact .inr ⟨_, String.intercalate_cons_cons⟩

/-- Every text behind a name and a mark is the joined text of a salt. -/
theorem joined_text (mark : Char) (name text : String) :
    joined (String.singleton mark) (.str name) (.str text) =
      name ++ String.singleton mark ++ text := by
  simp [joined, texts, flatten, flattenItems, componentText]

/-- A salt without components leaves the name alone. -/
theorem joined_nil (separator name : String) :
    joined separator (.str name) (.list []) = name := by
  simp [joined, texts, flatten, flattenItems, componentText]

/-- A name begins a text alone or before a mark when nothing or the mark comes next. -/
theorem begins_iff {mark : Char} {text name : String} :
    text = name ∨ Extends mark text name ↔
      ∃ tail, text.toList = name.toList ++ tail ∧ (tail = [] ∨ ∃ rest, tail = mark :: rest) := by
  -- The tail behind the name is empty, or it begins with the mark.
  constructor
  · rintro (rfl | ⟨rest, rfl⟩)
    · exact ⟨[], (List.append_nil _).symm, .inl rfl⟩
    · exact ⟨mark :: rest.toList, by simp, .inr ⟨_, rfl⟩⟩
  · rintro ⟨tail, whole, rfl | ⟨rest, rfl⟩⟩
    · exact .inl (String.toList_inj.mp (whole.trans (List.append_nil _)))
    · exact .inr ⟨String.ofList rest, String.toList_inj.mp (by simp [whole])⟩

/-- Of two names that begin a text, the longer one begins with the shorter one and the mark. -/
theorem extends_of_append {mark : Char} {name longer : String} {between tail tail' : List Char}
    (differ : name ≠ longer) (whole : longer.toList = name.toList ++ between)
    (tails : tail = between ++ tail') (next : tail = [] ∨ ∃ rest, tail = mark :: rest) :
    Extends mark longer name := by
  cases between with
  | nil => exact absurd (String.toList_inj.mp (whole.trans (List.append_nil _))).symm differ
  | cons first between =>
    -- What comes behind the shorter name is the mark, so the rest of the longer one starts with it.
    obtain rfl | ⟨rest, rfl⟩ := next
    · cases tails
    · obtain ⟨rfl, -⟩ := List.cons.inj tails
      exact (begins_iff.mpr ⟨_, whole, .inr ⟨between, rfl⟩⟩).resolve_left differ.symm

/-- Two names share a joined text when they are the same or one of them extends the other. -/
theorem shares_text_iff (mark : Char) (name name' : String) :
    (∃ salt salt', joined (String.singleton mark) (.str name) salt =
        joined (String.singleton mark) (.str name') salt') ↔
      name = name' ∨ Extends mark name' name ∨ Extends mark name name' := by
  constructor
  · rintro ⟨salt, salt', same⟩
    by_cases differ : name = name'
    · exact .inl differ
    -- The shared text begins with both names, so the shorter one begins the longer one.
    obtain ⟨tail, whole, next⟩ := begins_iff.mp (joined_cases mark name salt)
    obtain ⟨tail', whole', next'⟩ := begins_iff.mp (joined_cases mark name' salt')
    have split := whole.symm.trans ((congrArg String.toList same).trans whole')
    rcases List.append_eq_append_iff.mp split with ⟨between, longer, rest⟩ | ⟨between, longer, rest⟩
    · exact .inr (.inl (extends_of_append differ longer rest next))
    · exact .inr (.inr (extends_of_append (Ne.symm differ) longer rest next'))
  · -- A salt that is the rest of the longer name makes up for what the shorter one lacks.
    rintro (rfl | ⟨rest, rfl⟩ | ⟨rest, rfl⟩)
    · exact ⟨.null, .null, rfl⟩
    · exact ⟨.str rest, .list [], by rw [joined_text, joined_nil]⟩
    · exact ⟨.list [], .str rest, by rw [joined_text, joined_nil]⟩

end Salt

/--
Names with the separator in them do not separate what they digest.

The text of one name and a salt can be that of another name and another salt.
-/
theorem not_names_apart :
    ¬ ∀ (name name' : String) (salt salt' : Value), name ≠ name' →
      Policy.default.input name salt ≠ Policy.default.input name' salt' := by
  intro apart
  exact apart "a" "a.b" (.str "b.c") (.str "c") (by decide) (by decide)

/--
Names keep what they digest apart exactly when neither begins the other.

Under the default policy two names never give the same text, whatever their salts are, when they
differ and neither is the other with a point and any further text behind it; all others do.
-/
theorem names_apart_iff (name name' : String) :
    (∀ salt salt', Policy.default.input name salt ≠ Policy.default.input name' salt') ↔
      name ≠ name' ∧ ¬ Salt.Extends '.' name' name ∧ ¬ Salt.Extends '.' name name' := by
  -- Names are apart when no two salts give a shared text.
  have point : Policy.default.separator = String.singleton '.' := by decide
  have shared := Salt.shares_text_iff '.' name name'
  simp only [Policy.input, point]
  rw [← not_or, ← not_or, ← shared, not_exists]
  exact forall_congr' fun salt => not_exists.symm

end TrialScript

/-! Tables of named entries that keep the order in which names first came. -/

namespace TrialScript

/-- Named entries in order; the first entry of a name is the one that counts. -/
abbrev Table (α : Type) := List (String × α)

namespace Table

variable {α β : Type}

/-- The entry of a name. -/
def lookup? (name : String) : Table α → Option α
  | [] => none
  | (key, value) :: rest => if key = name then some value else lookup? name rest

/-- Whether a name has an entry. -/
def has (name : String) (table : Table α) : Bool :=
  (table.lookup? name).isSome

/-- Replaces the entry of a name where it stands, or adds it at the end. -/
def put (name : String) (value : α) : Table α → Table α
  | [] => [(name, value)]
  | (key, old) :: rest =>
    if key = name then (name, value) :: rest else (key, old) :: put name value rest

/-- Removes the entries of a name. -/
def without (name : String) (table : Table α) : Table α :=
  table.filter fun entry => entry.1 ≠ name

/-- The names in order. -/
def names (table : Table α) : List String :=
  table.map Prod.fst

/-- The table in which every entry of a list has been put in turn. -/
def ofEntries (entries : List (String × α)) : Table α :=
  entries.foldl (fun table entry => put entry.1 entry.2 table) []

/-- Inserts an entry before the first whose name is not smaller. -/
def insertByName (entry : String × α) : Table α → Table α
  | [] => [entry]
  | next :: rest =>
    if next.1 < entry.1 then next :: insertByName entry rest else entry :: next :: rest

/-- The entries in order of name, by code point. -/
def sortByName : Table α → Table α
  | [] => []
  | entry :: rest => insertByName entry (sortByName rest)

/-- An empty table finds nothing. -/
@[simp] theorem lookup?_nil (name : String) : lookup? name ([] : Table α) = none := rfl

/-- A name that was put has the new entry, and every other name keeps its own. -/
theorem lookup?_put (name other : String) (value : α) (table : Table α) :
    lookup? other (put name value table) =
      if name = other then some value else lookup? other table := by
  -- Putting stops at the first entry of the name, and the search passes the same entries.
  induction table with
  | nil => simp [put, lookup?]
  | cons head rest ih =>
    obtain ⟨key, old⟩ := head
    by_cases same : key = name
    · subst same; by_cases found : key = other <;> simp [put, lookup?, found]
    · by_cases found : key = other
      · subst found; simp [put, lookup?, same, Ne.symm same]
      · simp [put, lookup?, same, found, ih]

/-- A removed name has no entry, and every other name keeps its own. -/
theorem lookup?_without (name other : String) (table : Table α) :
    lookup? other (without name table) = if name = other then none else lookup? other table := by
  -- The filter drops exactly the entries that a search for the name would find.
  induction table with
  | nil => simp [without, lookup?]
  | cons head rest ih =>
    obtain ⟨key, old⟩ := head
    simp only [without, ne_eq, decide_not] at ih ⊢
    by_cases same : key = name
    · subst same
      by_cases found : key = other <;> simp_all [lookup?]
    · by_cases found : key = other
      · subst found; simp [lookup?, same, Ne.symm same]
      · simp [lookup?, same, found, ih]

end Table
end TrialScript

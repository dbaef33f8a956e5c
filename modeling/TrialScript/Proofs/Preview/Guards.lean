import TrialScript.Proofs.Description.Joining
import TrialScript.Proofs.Preview.Branches

/-! What guards record: previews only add alternatives, except where earlier branches are joined. -/

namespace TrialScript

/-- Every name keeps all the alternatives that it had. -/
def Store.Grows (before after : Store Description) : Prop :=
  ∀ name narrow, before.lookup name = some narrow →
    ∃ wide, after.lookup name = some wide ∧ wide.Covers narrow

namespace Store.Grows

/-- A store grows from itself. -/
theorem refl (store : Store Description) : store.Grows store :=
  fun _ narrow known => ⟨narrow, known, .refl narrow⟩

/-- Growing goes on. -/
theorem trans {first second third : Store Description} (earlier : first.Grows second)
    (later : second.Grows third) : first.Grows third := by
  -- Alternatives are followed through the descriptions in the middle.
  intro name narrow known
  obtain ⟨middle, found, covers⟩ := earlier name narrow known
  obtain ⟨wide, found', covers'⟩ := later name middle found
  exact ⟨wide, found', covers'.trans covers⟩

/-- Assigning a merged description keeps the alternatives from before. -/
theorem assign_merged {store : Store Description} {name : String} {given merged : Description}
    (merges : Description.merge (store.get name .unknown) given = .ok merged) :
    store.Grows (store.assign name merged) := by
  -- Merging covers its left side, which is what the name had.
  intro other narrow known
  rw [Store.lookup_assign]
  by_cases same : name = other
  · subst same
    simp only [Store.get, known, Option.getD_some] at merges
    exact ⟨merged, if_pos rfl, (Description.merges_of_merge merges).coversLeft⟩
  · exact ⟨narrow, by rw [if_neg same, known], .refl narrow⟩

end Store.Grows

/-- Growing can be followed step by step. -/
theorem Store.Grows.chains : Store.Chains Store.Grows :=
  ⟨refl, trans⟩

/-- A branch that assigns a name has all the alternatives that the name had before the branch. -/
theorem covers_of_branch {body : Tree} {outer inner : Store Description}
    {given narrow entry : Description} {name : String} (grows : body.PreviewKeeps Store.Grows)
    (branched : (preview body).run outer.push = (.ok given, inner))
    (known : outer.lookup name = some narrow) (member : entry ∈ inner.locals.entriesOf name) :
    entry.Covers narrow := by
  -- The body starts from an empty layer, through which everything below is seen.
  have tidy : inner.Tidy := previewKeeps Store.Tidy.kept body branched (.of_layer_nil rfl)
  have held := tidy.lookup_of_mem_locals (Table.mem_entriesOf.mp member)
  obtain ⟨wide, found, covers⟩ := grows branched name narrow (by rwa [Store.lookup_push])
  cases held.symm.trans found
  exact covers

/-- Gathering clauses adds alternatives, and each branch has all those that a name had before. -/
theorem Gathered.grows {clauses : List (Tree × Tree)} {branches : List (Table Description)}
    {before after : Store Description} (gathered : Gathered clauses before branches after)
    (grow : ∀ clause ∈ clauses,
      clause.1.PreviewKeeps Store.Grows ∧ clause.2.PreviewKeeps Store.Grows) :
    before.Grows after ∧ ∀ name narrow, before.lookup name = some narrow →
      ∀ entry ∈ branches.flatMap (Table.entriesOf name), entry.Covers narrow := by
  -- A body starts from what its guard left, and later clauses from there as well.
  induction gathered with
  | nil store => exact ⟨.refl store, by simp⟩
  | @cons guard body rest branches before middle inner after decided given guarded branched
      gathered ih =>
    obtain ⟨⟨guardGrows, bodyGrows⟩, others⟩ := List.forall_mem_cons.mp grow
    have first : before.Grows middle := guardGrows guarded
    obtain ⟨onward, ahead⟩ := ih others
    refine ⟨first.trans onward, fun name narrow known entry member => ?_⟩
    obtain ⟨between, found, covers⟩ := first name narrow known
    rw [List.flatMap_cons, List.mem_append] at member
    rcases member with here | later
    · exact (covers_of_branch bodyGrows branched found here).trans covers
    · exact (ahead name between found entry later).trans covers

/-- Joining branches that cover what names had in the beginning keeps that. -/
theorem Store.Grows.join {branches : List (Table Description)}
    {before middle after : Store Description} (grown : before.Grows middle)
    (joined : (assignJoined (branches.foldl collectBranch [])).run middle = (.ok (), after))
    (covers : ∀ name narrow, before.lookup name = some narrow →
      ∀ entry ∈ branches.flatMap (Table.entriesOf name), entry.Covers narrow) :
    before.Grows after := by
  -- A name that no branch assigned keeps what it had, and any other has a join.
  intro name narrow known
  rcases lookup_joined joined name with ⟨-, unchanged⟩ | ⟨some, wide, made, found⟩
  · rw [unchanged]
    exact grown name narrow known
  · -- The first entry is covered in any case, and it covers what was there in the beginning.
    obtain ⟨first, rest, entries⟩ := List.exists_cons_of_ne_nil some
    rw [entries] at made
    have member : first ∈ branches.flatMap (Table.entriesOf name) := entries ▸ List.mem_cons_self
    have before := covers name narrow known first member
    exact ⟨wide, found, (Description.join_covers_first made).trans before⟩

/-- Previews only add alternatives. -/
theorem previewGrows (tree : Tree) : tree.PreviewKeeps Store.Grows := by
  -- The induction is over the script, along the way in which its preview went.
  induction tree using Tree.induction_parts with
  | step tree ih =>
    intro before after found ran
    cases Previewed.of_run ran with
    | assign valued merges =>
      exact (ih _ (by simp [Tree.parts]) valued).trans (.assign_merged merges)
    | cond gathered joined =>
      obtain ⟨grown, covers⟩ := gathered.grows fun clause member =>
        ⟨ih _ (Tree.guard_mem_parts member), ih _ (Tree.body_mem_parts member)⟩
      exact grown.join joined covers
    | parts named plain visited =>
      exact visited.keeps Store.Grows.chains fun part member =>
        ih part (Tree.mem_parts_of_mem_surveyed member)

/-- The preview of clauses in a row is that of the first ones and then that of the others. -/
theorem Gathered.split {earlier later : List (Tree × Tree)}
    {branches past : List (Table Description)} {before reached after : Store Description}
    (gathered : Gathered (earlier ++ later) before branches after)
    (started : Gathered earlier before past reached) :
    ∃ ahead, branches = past ++ ahead ∧ Gathered later reached ahead after := by
  -- Previews are determined, so the first clauses went the same way in both runs.
  induction started generalizing branches with
  | nil store => exact ⟨branches, rfl, gathered⟩
  | cons guarded branched _ ih =>
    cases gathered with
    | cons guarded' branched' others =>
      cases guarded.symm.trans guarded'
      cases branched.symm.trans branched'
      obtain ⟨ahead, rfl, gathered⟩ := ih others
      exact ⟨ahead, rfl, gathered⟩

namespace Description

/-- One alternative is among or inside another: equal to it, or within its interval. -/
inductive Contained : Description → Description → Prop where
  | inside {inner outer : Description} (inside : Inside inner outer) : Contained inner outer
  | float {number : Number} {low high : Value} (between : Between low high number) :
      Contained (.atom (.num number)) (.range .float low high)
  | integer {whole : Int} {low high : Value} (between : Between low high (.int whole)) :
      Contained (.atom (.int whole)) (.range .integer low high)

/-- Every alternative of one description is among or inside the alternatives of another. -/
def Retains (wide narrow : Description) : Prop :=
  ∀ leaf ∈ narrow.leaves, ∃ other ∈ wide.leaves, Contained leaf other

/-- What is covered is retained. -/
theorem Covers.retains {wide narrow : Description} (covers : wide.Covers narrow) :
    wide.Retains narrow := by
  intro leaf member
  obtain ⟨other, found, inside⟩ := covers leaf member
  exact ⟨other, found, .inside inside⟩

end Description

/--
What a guard left for a name is retained after the condition, unless an earlier branch assigned the name.

After such a branch the join of all branches decides, which the guard is not a part of.
It has what the guard left wherever the body behind the guard or a later one assigns the name,
as long as no interval in the join has an undefined bound.
-/
theorem retains_after_cond {earlier later : List (Tree × Tree)} {guard body : Tree}
    {before reached present after : Store Description} {past : List (Table Description)}
    {found decided recorded : Description} {name : String}
    (ran : (preview (.cond (earlier ++ (guard, body) :: later))).run before = (.ok found, after))
    (gathered : Gathered earlier before past reached)
    (guarded : (preview guard).run reached = (.ok decided, present))
    (known : present.lookup name = some recorded) :
    ∃ ahead last final, Gathered ((guard, body) :: later) reached ahead last ∧
      after.lookup name = some final ∧
      (final.Retains recorded ↔ past.flatMap (Table.entriesOf name) = [] ∨
        ∃ joined, Description.join ((past ++ ahead).flatMap (Table.entriesOf name)) = .ok joined ∧
          joined.Retains recorded) ∧
      (ahead.flatMap (Table.entriesOf name) ≠ [] →
        (∀ entry ∈ (past ++ ahead).flatMap (Table.entriesOf name), entry.Ordered) →
        final.Retains recorded) := by
  -- Either no branch assigns the name, or the join of those that do replaces it.
  cases Previewed.of_run ran with
  | parts named plain visited => exact absurd rfl (plain _)
  | @cond _ _ last _ branches whole joined =>
    obtain ⟨ahead, rfl, remaining⟩ := whole.split gathered
    -- From the guard on, every branch that assigns the name has all that the guard left.
    have covers : present.Grows last ∧
        ∀ entry ∈ ahead.flatMap (Table.entriesOf name), entry.Covers recorded := by
      cases remaining with
      | cons guarded' branched others =>
        cases guarded.symm.trans guarded'
        obtain ⟨grown, rest⟩ := others.grows fun clause _ => ⟨previewGrows _, previewGrows _⟩
        refine ⟨grown, fun entry member => ?_⟩
        rw [List.flatMap_cons, List.mem_append] at member
        rcases member with here | further
        · exact covers_of_branch (previewGrows body) branched known here
        · exact rest name recorded known entry further
    obtain ⟨grown, covers⟩ := covers
    rcases lookup_joined joined name with ⟨none, unchanged⟩ | ⟨some, final, made, assigned⟩
    · -- No branch assigns the name, so what the guards left is all there is.
      obtain ⟨final, kept, wider⟩ := grown name recorded known
      rw [List.flatMap_append, List.append_eq_nil_iff] at none
      refine ⟨ahead, last, final, remaining, unchanged.trans kept, ?_, fun _ _ => wider.retains⟩
      exact iff_of_true wider.retains (.inl none.1)
    · refine ⟨ahead, last, final, remaining, assigned, ⟨?_, ?_⟩, ?_⟩
      · intro retains
        exact .inr ⟨final, made, retains⟩
      · rintro (untouched | ⟨joined, made', retains⟩)
        · -- The first branch that assigns the name comes after the guard.
          obtain ⟨first, rest, entries⟩ := List.exists_cons_of_ne_nil some
          have member : first ∈ ahead.flatMap (Table.entriesOf name) := by
            rw [List.flatMap_append, untouched, List.nil_append] at entries
            exact entries ▸ List.mem_cons_self
          rw [entries] at made
          have wider := (Description.join_covers_first made).trans (covers first member)
          exact wider.retains
        · cases made.symm.trans made'
          exact retains
      · -- Any entry from the guard on will do, since a join of ordered ones covers each of them.
        intro again ordered
        obtain ⟨entry, member⟩ := List.exists_mem_of_ne_nil _ again
        have inJoin : entry ∈ (past ++ ahead).flatMap (Table.entriesOf name) := by
          rw [List.flatMap_append]
          exact List.mem_append_right _ member
        have wider := (Description.join_covers made ordered entry inJoin).trans (covers entry member)
        exact wider.retains

/-- What an earlier branch assigned takes the place of what a guard recorded after it. -/
theorem retains_after_cond_overwritten :
    let first : Tree × Tree := (.scalar (.bool false), .assign "x" (.scalar (.num (.int 1))))
    let guard : Tree := .assign "x" (.scalar (.num (.int 2)))
    let start : Store Description := .ofBase .empty
    let recorded : Description := .atom (.int 2)
    let after := start.assign "x" (.atom (.int 1))
    (preview guard).run start = (.ok recorded, start.assign "x" recorded) ∧
      (preview (.cond [first, (guard, .null)])).run start = (.ok .unknown, after) ∧
      ∃ ahead final, after.lookup "x" = some final ∧ ¬ final.Retains recorded ∧
        ∀ joined,
          Description.join (([[("x", .atom (.int 1))]] ++ ahead).flatMap (Table.entriesOf "x")) =
            .ok joined → ¬ joined.Retains recorded := by
  intro first guard start recorded after
  have guarded : (preview guard).run start = (.ok recorded, start.assign "x" recorded) := rfl
  have ran : (preview (.cond ([first] ++ (guard, .null) :: []))).run start =
      (.ok .unknown, after) := rfl
  let inner := start.push.assign "x" (.atom (.int 1))
  have gathered : Gathered [first] start [inner.locals] start := .cons rfl rfl (.nil start)
  have known : (start.assign "x" recorded).lookup "x" = some recorded := rfl
  obtain ⟨ahead, last, final, -, assigned, exactly, -⟩ :=
    retains_after_cond ran gathered guarded known
  have lost : ¬ final.Retains recorded := by
    cases assigned
    intro retains
    -- One is the only alternative that is left, and two is not inside it.
    obtain ⟨other, member, contained⟩ := retains recorded List.mem_cons_self
    cases List.mem_singleton.mp member
    replace contained : Description.Contained (.atom (.int 2)) (.atom (.int 1)) := contained
    cases contained with
    | inside inside =>
      cases inside with
      | same equal => exact absurd equal (by decide +kernel)
  exact ⟨guarded, ran, ahead, final, assigned, lost,
    fun joined made retains => lost (exactly.mpr (.inr ⟨joined, made, retains⟩))⟩

end TrialScript

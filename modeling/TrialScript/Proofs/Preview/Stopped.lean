import TrialScript.Proofs.Preview.Normal
import TrialScript.Proofs.Preview.Reached

/-! What a preview leaves behind where it stops inside a branch. -/

namespace TrialScript

/--
A body that stops leaves no trace.

The clauses before it were gathered, its guard had a result, and something that it comes to stops,
in however many branches of its own. Then its condition leaves what the guards up to its own leave
when they are previewed alone, on the same layers. A script that comes to the condition leaves the
same, so that scripts previewed later see nothing of the bodies.
-/
theorem preview_stopped_in_body {guard body node : Tree} {earlier later : List (Tree × Tree)}
    {branches : List (Table Description)} {before between present inner : Store Description}
    {decided : Description} {fault : Fault} {depth : Nat}
    (gathered : Gathered earlier before branches between)
    (guarded : (preview guard).run between = (.ok decided, present))
    (reached : Reaches depth body present.push node inner)
    (stopped : ((preview node).run inner).1 = .error fault) :
    let cond : Tree := .cond (earlier ++ (guard, body) :: later)
    (preview cond).run before = (.error fault, present) ∧
      (∃ decisions, (previewItems (earlier.map Prod.fst ++ [guard])).run before =
        (.ok decisions, present)) ∧
      before.Overlays present ∧
      ∀ script start, Reaches 0 script start cond before →
        (preview script).run start = (.error fault, present) ∧
          ∀ scripts, start.afterPreviews (script :: scripts) = present.afterPreviews scripts := by
  intro cond
  have inside : ((preview body).run present.push).1 = .error fault := by
    obtain ⟨left, ran, -⟩ := reached.stops (Prod.ext stopped rfl)
    exact congrArg Prod.fst ran
  have stops : (preview cond).run before = (.error fault, present) :=
    preview_stops_at_body gathered guarded inside
  have above : before.Overlays present := by
    have kept := Store.Overlays.kept.preview cond before
    rwa [stops] at kept
  refine ⟨stops, (gathered.visited.snoc guarded).described, above, ?_⟩
  intro script start outer
  -- The way from the script to the condition goes through no other branch.
  obtain ⟨left, ran, same⟩ := outer.stops stops
  cases same rfl
  refine ⟨ran, fun scripts => ?_⟩
  rw [Store.afterPreviews, List.foldl_cons, ran]
  rfl

/-- The second body assigns and stops in a nested branch, and only the guards leave anything. -/
theorem preview_stopped_in_body_nested :
    let number (n : Int) : Tree := .scalar (.num (.int n))
    let infinite : Tree := .scalar (.num (.float (.infinite false)))
    let stop : Tree := .binary (.calculate .remainder) infinite infinite
    let nested : Tree := .cond [(number 1, .sequence [.assign "c" (number 5), stop])]
    let body : Tree := .sequence [.assign "b" (number 4), nested]
    let earlier : List (Tree × Tree) := [(.assign "g" (number 1), .assign "a" (number 2))]
    let cond : Tree := .cond (earlier ++ (.assign "h" (number 3), body) :: [])
    let script : Tree := .sequence [.assign "o" (number 0), cond]
    let one (n : Int) : Description := .atom (.int n)
    let started : Store Description := Inputs.symbols .none
    let before := started.assign "o" (one 0)
    let present := (before.assign "g" (one 1)).assign "h" (one 3)
    (preview cond).run before = (.error .undefinedRemainder, present) ∧
      (preview script).run started = (.error .undefinedRemainder, present) ∧
      ((preview (.lookup "b")).run (started.afterPreviews [script])).1 = .ok .unknown := by
  intro number infinite stop nested body earlier cond script one started before present
  -- A name that nothing is known of gets the number that it is given.
  have assigns (name : String) (n : Int) (store : Store Description)
      (fresh : store.get name .unknown = .unknown) :
      (preview (.assign name (number n))).run store = (.ok (one n), store.assign name (one n)) := by
    have merged : Description.merge (store.get name .unknown) (one n) = .ok (one n) := by
      rw [fresh]
      rfl
    simp only [preview, describe, number, Stateful.run_bind, Stateful.run_pure, Stateful.run_get,
      Stateful.run_modify, Stateful.run_lift, one] at merged ⊢
    rw [merged]
  let within := present.push.assign "b" (one 4)
  have gathered := Gathered.cons (assigns "g" 1 before rfl)
    (assigns "a" 2 (before.assign "g" (one 1)).push rfl) (.nil _)
  have guarded := assigns "h" 3 (before.assign "g" (one 1)) rfl
  have decided : (preview (number 1)).run within = (.ok (one 1), within) := rfl
  -- The way to what stops goes through the steps before it and into the nested branch.
  have amongNested : (Tree.sequence [.assign "c" (number 5), stop]).surveyed within.push =
      [.assign "c" (number 5)] ++ stop :: [] := rfl
  have amongBody : body.surveyed present.push = [.assign "b" (number 4)] ++ nested :: [] := rfl
  have amongScript : script.surveyed started = [.assign "o" (number 0)] ++ cond :: [] := rfl
  have reached : Reaches 1 body present.push stop (within.push.assign "c" (one 5)) :=
    .part amongBody (.cons (assigns "b" 4 present.push rfl) (.nil _))
      (.body (.nil _) decided
        (.part amongNested (.cons (assigns "c" 5 within.push rfl) (.nil _)) (.here _ _)))
  have outer : Reaches 0 script started cond before :=
    .part amongScript (.cons (assigns "o" 0 started rfl) (.nil _)) (.here _ _)
  have stopped : ((preview stop).run (within.push.assign "c" (one 5))).1 =
      .error .undefinedRemainder := rfl
  obtain ⟨stops, -, -, whole⟩ := preview_stopped_in_body gathered guarded reached stopped
  obtain ⟨ran, later⟩ := whole script started outer
  refine ⟨stops, ran, ?_⟩
  rw [later []]
  rfl

end TrialScript

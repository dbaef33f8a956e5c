import TrialScript.Proofs.Description.RoundTrip
import TrialScript.Proofs.Preview.Lasting
import TrialScript.Proofs.Tree.Keyed

/-! Previews record and give unions in normal form only, whether or not they stop. -/

namespace TrialScript

/-- The described variables after some scripts were previewed in turn, those that stopped included. -/
def Store.afterPreviews (symbols : Store Description) (trees : List Tree) : Store Description :=
  trees.foldl (fun symbols tree => ((preview tree).run symbols).2) symbols

/-- Previewing scripts in turn keeps everything sound that is recorded. -/
theorem Store.Everywhere.sound_afterPreviews {trees : List Tree}
    (keyed : ∀ tree ∈ trees, tree.Keyed) {symbols : Store Description}
    (sound : symbols.Everywhere Description.Sound) :
    (symbols.afterPreviews trees).Everywhere Description.Sound := by
  -- The induction is on the scripts, each of which starts from what the last one left.
  induction trees generalizing symbols with
  | nil => exact sound
  | cons tree rest ih =>
    obtain ⟨here, others⟩ := List.forall_mem_cons.mp keyed
    have kept := Description.Sound.lasting.preview fun value literal =>
      Description.sound_ofLiteral (here value literal)
    exact ih others (kept symbols sound).1

/--
Unions are always in normal form.

The described inputs are read from wire shapes, and parsed scripts are previewed in turn, whether or
not they stop. Then everything recorded is in normal form at every depth, and so is every result.
-/
theorem normal_afterPreviews {inputs : Inputs Description} {trees : List Tree}
    (described : inputs.symbols.Everywhere fun description =>
      ∃ shape : Value, shape.Keyed ∧ Description.read shape = .ok description)
    (parsed : ∀ tree ∈ trees, ∃ script : Value, script.Keyed ∧ Tree.parse script = .ok tree) :
    let symbols := inputs.symbols.afterPreviews trees
    symbols.Everywhere Description.Normal ∧ (∀ entry ∈ symbols.toTable, entry.2.Normal) ∧
      ∀ (script : Value) (tree : Tree), script.Keyed → Tree.parse script = .ok tree →
        ∀ found, ((preview tree).run symbols).1 = .ok found → found.Normal := by
  intro symbols
  have started : inputs.symbols.Everywhere Description.Sound := by
    refine described.mono fun description given => ?_
    obtain ⟨shape, keyedShape, gave⟩ := given
    exact Description.gives_read keyedShape description gave
  have keyed : ∀ tree ∈ trees, tree.Keyed := by
    intro tree member
    obtain ⟨script, keyedScript, parsed⟩ := parsed tree member
    exact Tree.keyed_of_parse keyedScript parsed
  have sound : symbols.Everywhere Description.Sound := started.sound_afterPreviews keyed
  refine ⟨sound.mono fun _ here => here.1, fun entry member => (sound.of_mem_toTable member).1, ?_⟩
  intro script tree keyedScript parsed found gave
  -- One more preview gives something sound.
  have keyedTree := Tree.keyed_of_parse keyedScript parsed
  have kept := Description.Sound.lasting.preview fun value literal =>
    Description.sound_ofLiteral (keyedTree value literal)
  exact ((kept symbols sound).2 found gave).1

/-- A script that stops at bounds without an order has extended a union before, which stays normal. -/
theorem normal_afterPreviews_stopped :
    let union : Value := .dict [("type", .str "union"), ("variants", .list [.str "a", .str "b"])]
    let bounds : Value := .dict [("type", .str "float"), ("min", .str "a"), ("max", .str "b")]
    let known : Description := .union [.atom (.str "a"), .atom (.str "b")]
    let inputs : Inputs Description :=
      .mapping [("x", known), ("r", .range .float (.str "a") (.str "b"))]
    let literal : Value := .dict [("op", .str "literal"), ("value", .list [.str "c"])]
    let range : Value := .dict [("op", .str "randomFloat"), ("min", .int 0), ("max", .int 1)]
    let steps : Value := .list [.dict [("op", .str "set"), ("var", .str "x"), ("value", literal)],
      .dict [("op", .str "set"), ("var", .str "r"), ("value", range)]]
    let script : Value := .dict [("op", .str "seq"), ("seq", steps)]
    let looksUp : Value := .dict [("op", .str "get"), ("var", .str "x")]
    let tree : Tree := .sequence [.assign "x" (.literal (.list [.str "c"])),
      .assign "r" (.randomRange .float (.scalar (.num (.int 0))) (.scalar (.num (.int 1))) .null)]
    let found : Description :=
      .union [.atom (.str "a"), .atom (.str "b"), .array [.atom (.str "c")]]
    let symbols := inputs.symbols.afterPreviews [tree]
    Description.read union = .ok known ∧
      Description.read bounds = .ok (.range .float (.str "a") (.str "b")) ∧
      Tree.parse script = .ok tree ∧
      Tree.parse looksUp = .ok (.lookup "x") ∧
      ((preview tree).run inputs.symbols).1 = .error .wrongKind ∧
      ((preview (.lookup "x")).run symbols).1 = .ok found ∧ found.Normal := by
  intro union bounds known inputs literal range steps script looksUp tree found symbols
  have keyedUnion : union.Keyed := .dict (by decide) (by simp [Value.Keyed.scalar, Value.Keyed.list])
  have keyedBounds : bounds.Keyed := .dict (by decide) (by simp [Value.Keyed.scalar])
  have described : inputs.symbols.Everywhere fun description =>
      ∃ shape : Value, shape.Keyed ∧ Description.read shape = .ok description := by
    refine ⟨List.forall_mem_cons.mpr ⟨⟨union, keyedUnion, rfl⟩, List.forall_mem_cons.mpr
      ⟨⟨bounds, keyedBounds, rfl⟩, fun _ member => absurd member List.not_mem_nil⟩⟩, ?_⟩
    exact fun _ member => absurd member List.not_mem_nil
  -- Every mapping of the script names its fields once.
  have keyedLiteral : literal.Keyed :=
    .dict (by decide) (by simp [Value.Keyed.scalar, Value.Keyed.list])
  have keyedRange : range.Keyed := .dict (by decide) (by simp [Value.Keyed.scalar])
  have keyedSteps : steps.Keyed := by
    refine .list (List.forall_mem_cons.mpr ⟨.dict (by decide) ?_, List.forall_mem_cons.mpr
      ⟨.dict (by decide) ?_, by simp⟩⟩)
    · simp [Value.Keyed.scalar, keyedLiteral]
    · simp [Value.Keyed.scalar, keyedRange]
  have keyedScript : script.Keyed := .dict (by decide) (by simp [Value.Keyed.scalar, keyedSteps])
  have parsed : ∀ parsed ∈ [tree], ∃ script : Value,
      script.Keyed ∧ Tree.parse script = .ok parsed := by
    intro parsed member
    cases List.mem_singleton.mp member
    exact ⟨script, keyedScript, rfl⟩
  have keyedLookup : looksUp.Keyed := .dict (by decide) (by simp [Value.Keyed.scalar])
  have gave : ((preview (.lookup "x")).run symbols).1 = .ok found := rfl
  exact ⟨rfl, rfl, rfl, rfl, rfl, gave,
    (normal_afterPreviews described parsed).2.2 looksUp _ keyedLookup rfl found gave⟩

end TrialScript

import Calldata.Command.Codegen
import Calldata.Proofs.Building
import Calldata.Proofs.Growth
import Calldata.Proofs.Merged

/-!
Which types have decoders, and what a decoder depends on. In an arena that a resolver filled, only a
function type has no layout. The nodes of a tree are laid out in ascending order, so the function type
that is reported is the first one; without one every later step succeeds, and all that the plan depends
on is the tree.
-/
namespace Calldata

namespace Arena
variable {a : Arena} {id n k : NodeId}

def IsFunction (a : Arena) (n : NodeId) : Prop := ∃ node ∈ a.get? n, node.kind = .function

instance (a : Arena) (n : NodeId) : Decidable (a.IsFunction n) :=
  inferInstanceAs (Decidable (∃ node ∈ a.get? n, node.kind = .function))

/-- A function type that can be reached from the node, and of those the one with the smallest id. -/
structure FirstFunction (a : Arena) (id n : NodeId) (node : Node) : Prop where
  reached : a.Reaches id n
  found : a.get? n = some node
  kind : node.kind = .function
  least : ∀ m, a.Reaches id m → a.IsFunction m → n ≤ m

theorem Forest.functionFree_iff (forest : a.Forest) (found : id < a.size) :
    a.FunctionFree id ↔ ¬ ∃ n, a.Reaches id n ∧ a.IsFunction n := by
  constructor
  · rintro free ⟨n, reached, node, there, kind⟩
    exact free n ((forest.mem_subtree_iff found).2 reached) node there kind
  · intro none n listed node there kind
    exact none ⟨n, (forest.mem_subtree_iff found).1 listed, node, there, kind⟩

theorem Forest.lt_of_mem_subtree (forest : a.Forest) (found : id < a.size) (h : n ∈ a.subtree id) :
    n < a.size :=
  Nat.lt_of_le_of_lt (forest.le_of_reaches ((forest.mem_subtree_iff found).1 h)) found

section Split
variable {before after : List NodeId}

theorem Forest.mem_before_iff (forest : a.Forest) (split : a.subtree id = before ++ n :: after) :
    k ∈ before ↔ k ∈ a.subtree id ∧ k < n := by
  have ascending := @Forest.ascending_subtree a id forest
  rw [split] at ascending ⊢
  obtain ⟨_, behind, across⟩ := List.pairwise_append.1 ascending
  constructor
  · intro h
    exact ⟨List.mem_append_left _ h, across k h n List.mem_cons_self⟩
  · rintro ⟨h, less⟩
    refine (List.mem_append.1 h).resolve_right fun later => ?_
    rcases List.mem_cons.1 later with rfl | later
    · exact Nat.lt_irrefl k less
    · exact Nat.lt_asymm less ((List.pairwise_cons.1 behind).1 k later)

theorem Forest.exists_tree_before (forest : a.Forest) (found : id < a.size)
    (split : a.subtree id = before ++ n :: after) (free : ∀ m ∈ before, ¬ a.IsFunction m) :
    ∀ m ∈ before, ∃ t, a.tree? m = some t := by
  intro m hm
  obtain ⟨listed, less⟩ := (forest.mem_before_iff split).1 hm
  have small : m < a.size := forest.lt_of_mem_subtree found listed
  refine forest.exists_tree small fun k hk node there kind => ?_
  -- what lies below `m` lies below `id` too, and in front of `n` with it
  have reached := (forest.mem_subtree_iff small).1 hk
  have inside : k ∈ a.subtree id :=
    (forest.mem_subtree_iff found).2 (((forest.mem_subtree_iff found).1 listed).trans reached)
  have earlier : k < n := Nat.lt_of_le_of_lt (forest.le_of_reaches reached) less
  exact free k ((forest.mem_before_iff split).2 ⟨inside, earlier⟩) ⟨node, there, kind⟩

theorem Forest.exists_firstFunction (forest : a.Forest) (found : id < a.size) (function : ¬ a.FunctionFree id) :
    ∃ before n after node, a.subtree id = before ++ n :: after ∧ (∀ m ∈ before, ¬ a.IsFunction m) ∧
      a.FirstFunction id n node := by
  rw [forest.functionFree_iff found, not_not] at function
  obtain ⟨m, reached, isFunction⟩ := function
  obtain ⟨n, first⟩ : ∃ n, (a.subtree id).find? (fun n => decide (a.IsFunction n)) = some n := by
    rw [← Option.isSome_iff_exists, List.find?_isSome]
    exact ⟨m, (forest.mem_subtree_iff found).2 reached, decide_eq_true isFunction⟩
  obtain ⟨isFunction, before, after, split, free⟩ := List.find?_eq_some_iff_append.1 first
  obtain ⟨node, there, kind⟩ := of_decide_eq_true isFunction
  have free : ∀ m ∈ before, ¬ a.IsFunction m := by simpa using free
  have listed : n ∈ a.subtree id := by simp [split]
  refine ⟨before, n, after, node, split, free, (forest.mem_subtree_iff found).1 listed, there, kind, ?_⟩
  intro m reached other
  by_contra less
  have inside := (forest.mem_subtree_iff found).2 reached
  exact free m ((forest.mem_before_iff split).2 ⟨inside, Nat.lt_of_not_le less⟩) other

end Split

end Arena

namespace LayoutTable
variable {a : Arena} {id : NodeId}

theorem exists_laid_before (forest : a.Forest) (found : id < a.size) {n : NodeId} {before after : List NodeId}
    (split : a.subtree id = before ++ n :: after) (free : ∀ m ∈ before, ¬ a.IsFunction m) :
    ∃ table, before.foldlM (fun t id => do return t.set id (← layoutOf a t id)) (blank a.size) = .ok table := by
  have ascending := @Arena.pairwise_subtree a id
  rw [split] at ascending
  have closed (m : NodeId) (hm : m ∈ before) (c : NodeId) (hc : c ∈ a.children m) : c ∈ [] ++ before := by
    obtain ⟨listed, less⟩ := (forest.mem_before_iff split).1 hm
    have reached := ((forest.mem_subtree_iff found).1 listed).tail hc
    exact (forest.mem_before_iff split).2
      ⟨(forest.mem_subtree_iff found).2 reached, Nat.lt_trans (forest.below hc) less⟩
  obtain ⟨table, laid, _⟩ := @foldlM_lays a (blank a.size) forest before []
    (List.pairwise_append.1 ascending).1 closed (forest.exists_tree_before found split free)
    (by simp [blank]) (by simp [Lays])
  exact ⟨table, laid⟩

theorem ofTree_refused (forest : a.Forest) (found : id < a.size) (function : ¬ a.FunctionFree id) :
    ∃ n node, a.FirstFunction id n node ∧ ofTree a id = .error (.unsupported node.name .functionType) := by
  obtain ⟨before, n, after, node, split, free, first⟩ := forest.exists_firstFunction found function
  obtain ⟨table, laid⟩ := exists_laid_before forest found split free
  have refused : layoutOf a table n = .error (.unsupported node.name .functionType) := by
    simp only [layoutOf, first.found, first.kind]
  refine ⟨n, node, first, ?_⟩
  rw [ofTree, ofIds, split, List.foldlM_append, laid]
  simp [bind, Except.bind, refused]

theorem ofTree_ok_iff (forest : a.Forest) (found : id < a.size) :
    (∃ layouts, ofTree a id = .ok layouts) ↔ a.FunctionFree id := by
  constructor
  · rintro ⟨layouts, laid⟩
    by_contra function
    obtain ⟨_, _, _, failed⟩ := ofTree_refused forest found function
    rw [laid] at failed
    cases failed
  · intro free
    obtain ⟨t, ht⟩ := forest.exists_tree found free
    obtain ⟨layouts, laid, _⟩ := ofTree_spec forest ht
    exact ⟨layouts, laid⟩

theorem ofTree_error (forest : a.Forest) (found : id < a.size) {e : LayoutError} (failed : ofTree a id = .error e) :
    ∃ n node, a.FirstFunction id n node ∧ e = .unsupported node.name .functionType := by
  have function : ¬ a.FunctionFree id := by
    intro free
    obtain ⟨layouts, laid⟩ := (ofTree_ok_iff forest found).2 free
    rw [laid] at failed
    cases failed
  obtain ⟨n, node, first, refused⟩ := ofTree_refused forest found function
  rw [refused] at failed
  cases failed
  exact ⟨n, node, first, rfl⟩

theorem ofTree_error_iff (forest : a.Forest) (found : id < a.size) :
    (∃ e, ofTree a id = .error e) ↔ ∃ n, a.Reaches id n ∧ a.IsFunction n := by
  constructor
  · rintro ⟨e, failed⟩
    obtain ⟨n, node, first, _⟩ := ofTree_error forest found failed
    exact ⟨n, first.reached, node, first.found, first.kind⟩
  · intro function
    obtain ⟨_, _, _, refused⟩ := ofTree_refused forest found fun free =>
      (forest.functionFree_iff found).1 free function
    exact ⟨_, refused⟩

end LayoutTable

theorem Decoder.ofRoot_ok_iff {a : Arena} {id : NodeId} (forest : a.Forest) (found : id < a.size)
    (options : Options) (name : String) : (∃ d, ofRoot a options name id = .ok d) ↔ a.FunctionFree id := by
  constructor
  · rintro ⟨d, ok⟩
    rw [← LayoutTable.ofTree_ok_iff forest found]
    rw [ofRoot] at ok
    split at ok
    · cases ok
    · next layouts laid => exact ⟨layouts, laid⟩
  · intro free
    obtain ⟨t, ht⟩ := forest.exists_tree found free
    exact ⟨_, ofRoot_eq forest ht options name⟩

theorem Tree.measured_planWith (t : Tree) (options : Options) (scope : String) (isStrict : options.strict = true) :
    (t.planWith options scope).calldataSize ≠ none := by
  rw [planWith]
  split
  · rw [Plan.calldataSize_merged]
    exact t.measured_plan scope isStrict
  · exact t.measured_plan scope isStrict

namespace CodegenRequest
variable {a : Arena} {options : Options} {name : String} {id : NodeId} {rest selected : List (String × NodeId)}

def outcome (a : Arena) (options : Options) (strictly : Bool) (selected : List (String × NodeId))
    (printed : Printed) : Except CommandError (List Decoder) :=
  ((decoders a options strictly selected).run.run printed).1

theorem outcome_of_ok {strictly : Bool} {d : Decoder} (made : Decoder.ofRoot a options name id = .ok d)
    (printed : Printed) : outcome a options strictly ((name, id) :: rest) printed =
      (outcome a options strictly rest printed).map (d :: ·) := by
  simp only [outcome, decoders, made, bind_pure_comp, ExceptT.run_map, StateT.run_map]
  rfl

theorem outcome_of_error {e : DecoderError} (failed : Decoder.ofRoot a options name id = .error e)
    (printed : Printed) : ∃ warned, outcome a options false ((name, id) :: rest) printed =
      outcome a options false rest warned := by
  rw [outcome, decoders, failed]
  exact ⟨_, rfl⟩

theorem strict_outcome_of_error {e : DecoderError} (failed : Decoder.ofRoot a options name id = .error e)
    (printed : Printed) :
    outcome a options true ((name, id) :: rest) printed = .error (.cannotSynthesize name e) := by
  rw [outcome, decoders, failed]
  rfl

/-- Roots that cannot be decoded are passed over, and the others are decoded in order. -/
theorem exists_outcome {supported : String × NodeId → Prop} [DecidablePred supported]
    (exact : ∀ root ∈ selected, supported root ↔ ∃ d, Decoder.ofRoot a options root.1 root.2 = .ok d)
    (printed : Printed) : ∃ ds, outcome a options false selected printed = .ok ds ∧
      List.Forall₂ (fun root d => Decoder.ofRoot a options root.1 root.2 = .ok d)
        (selected.filter supported) ds := by
  induction selected generalizing printed with
  | nil => exact ⟨[], rfl, .nil⟩
  | cons root rest ih =>
    have here := exact root (by simp)
    have ih := ih fun other ho => exact other (by simp [ho])
    cases made : Decoder.ofRoot a options root.1 root.2 with
    | ok d =>
      obtain ⟨ds, ok, each⟩ := ih printed
      refine ⟨d :: ds, by rw [outcome_of_ok made, ok]; rfl, ?_⟩
      rw [List.filter_cons_of_pos (by simpa using here.2 ⟨d, made⟩)]
      exact .cons made each
    | error e =>
      obtain ⟨warned, same⟩ := outcome_of_error made printed
      obtain ⟨ds, ok, each⟩ := ih warned
      refine ⟨ds, same.trans ok, ?_⟩
      rw [List.filter_cons_of_neg (by simp [here, made])]
      exact each

theorem strict_outcome_error_iff (printed : Printed) :
    (∃ e, outcome a options true selected printed = .error e) ↔
      ∃ root ∈ selected, ¬ ∃ d, Decoder.ofRoot a options root.1 root.2 = .ok d := by
  induction selected with
  | nil => simp [outcome, decoders]
  | cons root rest ih =>
    rw [List.exists_mem_cons_iff, ← ih]
    cases made : Decoder.ofRoot a options root.1 root.2 with
    | ok d =>
      rw [outcome_of_ok made]
      cases outcome a options true rest printed <;> simp [Except.map]
    | error e =>
      rw [strict_outcome_of_error made]
      simp

end CodegenRequest

/-- A type that a resolver accepted has no layout exactly if there is a function type in it, and the first
one is reported. With a layout it has a plan, which in strict mode knows its size in calldata. So making
decoders never fails for roots that were not asked for by name, and decodes all those without a function
type in order; for roots that were asked for it fails exactly if one has a function type in it. -/
theorem unsupported_of_history (calls : List Call) :
    let a := (Resolver.history calls).arena
    (∀ id, id < a.size →
      ((∃ e, LayoutTable.ofTree a id = .error e) ↔ ∃ n, a.Reaches id n ∧ a.IsFunction n) ∧
      (∀ e, LayoutTable.ofTree a id = .error e →
        ∃ n node, a.FirstFunction id n node ∧ e = .unsupported node.name .functionType) ∧
      ∀ layouts, LayoutTable.ofTree a id = .ok layouts → ∀ options scope, ∃ plan built,
        Synthesizer.synthesize ⟨a, layouts, options⟩ id scope = .ok plan ∧
        Synthesizer.build ⟨a, layouts, options⟩ id scope = .ok built ∧
        (options.strict = true → plan.calldataSize ≠ none ∧ built.calldataSize ≠ none)) ∧
    ∀ selected : List (String × NodeId), (∀ root ∈ selected, root.2 < a.size) → ∀ options printed,
      (∃ ds, CodegenRequest.outcome a options false selected printed = .ok ds ∧
        List.Forall₂ (fun root d => Decoder.ofRoot a options root.1 root.2 = .ok d)
          (selected.filter fun root => a.FunctionFree root.2) ds) ∧
      ((∃ e, CodegenRequest.outcome a options true selected printed = .error e) ↔
        ∃ root ∈ selected, ∃ n, a.Reaches root.2 n ∧ a.IsFunction n) := by
  intro a
  have forest : a.Forest := (Resolver.reachable_foldl .empty calls).forest
  refine ⟨fun id found => ?_, fun selected found options printed => ?_⟩
  · refine ⟨LayoutTable.ofTree_error_iff forest found, fun e => LayoutTable.ofTree_error forest found, ?_⟩
    intro layouts laid options scope
    have free := (LayoutTable.ofTree_ok_iff forest found).1 ⟨layouts, laid⟩
    obtain ⟨t, ht⟩ := forest.exists_tree found free
    refine ⟨_, _, Synthesizer.synthesize_eq forest ht laid options scope,
      Synthesizer.build_eq forest ht laid options scope, fun isStrict => ?_⟩
    exact ⟨t.measured_plan scope isStrict, t.measured_planWith options scope isStrict⟩
  · have supported (root : String × NodeId) (h : root ∈ selected) :=
      Decoder.ofRoot_ok_iff forest (found root h) options root.1
    refine ⟨CodegenRequest.exists_outcome (fun root h => (supported root h).symm) printed, ?_⟩
    rw [CodegenRequest.strict_outcome_error_iff]
    refine exists_congr fun root => and_congr_right fun h => ?_
    rw [supported root h, forest.functionFree_iff (found root h), not_not]

/-- A list with a function type behind an array, and one without. -/
def Call.hooked : List Call :=
  [.resolveParams "f" [⟨"a", .array .bytes none⟩, ⟨"hook", .function⟩], .resolveParams "g" [⟨"x", .uint 64⟩]]

theorem unsupported_of_hooked_history :
    let a := (Resolver.history Call.hooked).arena
    let selected := [("f", 3), ("g", 5)]
    (∃ e, LayoutTable.ofTree a 3 = .error e) ∧
    (∃ e, CodegenRequest.outcome a ⟨true, true⟩ true selected .nothing = .error e) ∧
    ∃ ds, CodegenRequest.outcome a ⟨true, true⟩ false selected .nothing = .ok ds ∧
      List.Forall₂ (fun root d => Decoder.ofRoot a ⟨true, true⟩ root.1 root.2 = .ok d) [("g", 5)] ds := by
  intro a selected
  obtain ⟨single, many⟩ := unsupported_of_history Call.hooked
  have function : ∃ n, a.Reaches 3 n ∧ a.IsFunction n := ⟨2, .single (by decide), by decide⟩
  have found : ∀ root ∈ selected, root.2 < a.size := by decide
  obtain ⟨lenient, strict⟩ := many selected found ⟨true, true⟩ .nothing
  have left : (selected.filter fun root => a.FunctionFree root.2) = [("g", 5)] := by decide
  exact ⟨(single 3 (by decide)).1.2 function, strict.2 ⟨("f", 3), by simp [selected], function⟩, left ▸ lenient⟩

/-- The plan of a type depends on its tree alone: wherever two resolvers hold the same tree, whatever else
was asked of them and whatever ids the nodes have, the layouts lead to the same plans. -/
theorem plan_of_same_tree (calls calls' : List Call) (i j : NodeId) (t : Tree)
    (here : (Resolver.history calls).arena.tree? i = some t)
    (there : (Resolver.history calls').arena.tree? j = some t) :
    let a := (Resolver.history calls).arena
    let b := (Resolver.history calls').arena
    ∃ layouts layouts', LayoutTable.ofTree a i = .ok layouts ∧ LayoutTable.ofTree b j = .ok layouts' ∧
      ∀ options scope, ∃ plan built,
        Synthesizer.synthesize ⟨a, layouts, options⟩ i scope = .ok plan ∧
        Synthesizer.synthesize ⟨b, layouts', options⟩ j scope = .ok plan ∧
        Synthesizer.build ⟨a, layouts, options⟩ i scope = .ok built ∧
        Synthesizer.build ⟨b, layouts', options⟩ j scope = .ok built := by
  intro a b
  have forest : a.Forest := (Resolver.reachable_foldl .empty calls).forest
  have forest' : b.Forest := (Resolver.reachable_foldl .empty calls').forest
  obtain ⟨layouts, laid, _⟩ := LayoutTable.ofTree_spec forest here
  obtain ⟨layouts', laid', _⟩ := LayoutTable.ofTree_spec forest' there
  refine ⟨layouts, layouts', laid, laid', fun options scope => ?_⟩
  exact ⟨t.plan options.strict scope, t.planWith options scope,
    Synthesizer.synthesize_eq forest here laid options scope,
    Synthesizer.synthesize_eq forest' there laid' options scope,
    Synthesizer.build_eq forest here laid options scope,
    Synthesizer.build_eq forest' there laid' options scope⟩

/-- The list of the retried calls, asked for at once and with its pairs written out. -/
def Call.direct : List Call :=
  [.resolveParams "g" [⟨"a", .array (.record [⟨"x", .address⟩, ⟨"y", .bool⟩]) (some 2)⟩,
    ⟨"b", .record [⟨"x", .uint 8⟩, ⟨"y", .uint 16⟩]⟩]]

theorem plan_of_same_tree_retried :
    let a := (Resolver.history Call.retried).arena
    let b := (Resolver.history Call.direct).arena
    a.tree? 9 = b.tree? 7 ∧
    ∃ layouts layouts', LayoutTable.ofTree a 9 = .ok layouts ∧ LayoutTable.ofTree b 7 = .ok layouts' ∧
      ∃ built, Synthesizer.build ⟨a, layouts, ⟨true, true⟩⟩ 9 "p" = .ok built ∧
        Synthesizer.build ⟨b, layouts', ⟨true, true⟩⟩ 7 "p" = .ok built := by
  intro a b
  let pair : Tree := .record [("x", .word), ("y", .word)]
  let t : Tree := .record [("a", .fixed 2 (by decide) pair), ("b", pair)]
  have here : a.tree? 9 = some t := rfl
  have there : b.tree? 7 = some t := rfl
  obtain ⟨layouts, layouts', laid, laid', same⟩ :=
    plan_of_same_tree Call.retried Call.direct 9 7 t here there
  obtain ⟨_, built, _, _, first, second⟩ := same ⟨true, true⟩ "p"
  exact ⟨here.trans there.symm, layouts, layouts', laid, laid', built, first, second⟩

end Calldata

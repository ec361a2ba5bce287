import Calldata.Proofs.DependencyOrder

/-!
The dependency order of any list of definitions. Of definitions with one name the last counts, at the place
of the first. There is an order exactly if the references among defined names go round nowhere; it keeps the
order of declaration as far as references allow, and a cycle that is reported is one.
-/
namespace Calldata
open Relation

namespace Ty
variable {t : Ty} {n : String}

inductive Mentions : Ty → String → Prop
  | reference (n : String) : Mentions (.reference n) n
  | array {t : Ty} {n : String} (length : Option UInt64) (inner : Mentions t n) : Mentions (.array t length) n
  | record {fields : List Field} {f : Field} {n : String} (there : f ∈ fields) (inner : Mentions f.type n) :
      Mentions (.record fields) n

mutual

theorem mem_references_iff : (t : Ty) → (n ∈ t.references ↔ t.Mentions n)
  | .elementary _ | .enumeration _ | .function => ⟨nofun, nofun⟩
  | .reference _ => by
    rw [references, List.mem_singleton]
    constructor
    · rintro rfl
      exact .reference _
    · rintro ⟨⟩
      rfl
  | .array element length => by
    rw [references, mem_references_iff element]
    constructor
    · exact .array length
    · rintro ⟨⟩
      assumption
  | .record fields => by
    rw [references, mem_referencesOfFields_iff fields]
    constructor
    · rintro ⟨f, there, inner⟩
      exact .record there inner
    · rintro ⟨⟩
      exact ⟨_, ‹_›, ‹_›⟩

theorem mem_referencesOfFields_iff : (fields : List Field) →
    (n ∈ referencesOfFields fields ↔ ∃ f ∈ fields, f.type.Mentions n)
  | [] => by simp [referencesOfFields]
  | ⟨name, type⟩ :: rest => by
    rw [referencesOfFields, List.mem_append, mem_references_iff type, mem_referencesOfFields_iff rest,
      List.exists_mem_cons_iff]

end

end Ty

/-- A way from a name back to itself that meets no other name twice. -/
def ClosedPath (edge : String → String → Prop) (path : List String) : Prop :=
  ∃ name others, path = name :: others ++ [name] ∧ (name :: others).Nodup ∧ path.IsChain edge

theorem Graph.closedPath_dependencyOrder {g : Graph} {c : Graph.Cycle} (h : g.dependencyOrder = .error c) :
    ClosedPath g.Edge c.path := genuine_dependencyOrder h

namespace Definition

/-- The definition of `m` that counts, which is the last one, mentions `n`. -/
def Uses (definitions : List Definition) (m n : String) : Prop :=
  ∃ before d after, definitions = before ++ d :: after ∧ d.name = m ∧ (∀ later ∈ after, later.name ≠ m) ∧
    d.body.Mentions n

end Definition

namespace Graph
variable {g : Graph} {definitions : List Definition} {order : List String} {m n : String}

theorem edge_iff_uses : (ofDefinitions definitions).Edge m n ↔ Definition.Uses definitions m n := by
  simp only [Edge, lookup_ofDefinitions, Option.map_eq_some_iff, List.find?_eq_some_iff_append]
  constructor
  · rintro ⟨_, ⟨d, ⟨same, after, before, split, others⟩, rfl⟩, hn⟩
    refine ⟨before.reverse, d, after.reverse, ?_, by simpa using same, ?_, ?_⟩
    · rw [← List.reverse_inj, split]
      simp
    · intro later there
      simpa using others later (List.mem_reverse.1 there)
    · exact (Ty.mem_references_iff d.body).1 (mem_ascending.1 hn)
  · rintro ⟨before, d, after, rfl, rfl, others, mentioned⟩
    refine ⟨_, ⟨d, ⟨by simp, after.reverse, before.reverse, by simp, ?_⟩, rfl⟩, ?_⟩
    · intro later there
      simpa using others later (List.mem_reverse.1 there)
    · exact mem_ascending.2 ((Ty.mem_references_iff d.body).2 mentioned)

theorem mem_names_iff_mem_map : n ∈ (ofDefinitions definitions).names ↔ n ∈ definitions.map Definition.name := by
  rw [mem_names_ofDefinitions, List.mem_map]

section Declaration

theorem names_setEdges (name : String) (referenced : List String) (edges : List (String × List String)) :
    (setEdges name referenced edges).map Prod.fst =
      if name ∈ edges.map Prod.fst then edges.map Prod.fst else edges.map Prod.fst ++ [name] := by
  induction edges with
  | nil => rfl
  | cons e rest ih =>
    rw [setEdges]
    by_cases same : name = e.1
    · simp [same]
    · rw [if_neg same, List.map_cons, ih]
      by_cases there : name ∈ rest.map Prod.fst
      · rw [if_pos there, if_pos (by simp [there]), List.map_cons]
      · rw [if_neg there, if_neg (by simp [there, same]), List.map_cons, List.cons_append]

/-- Names are walked in the order of their first definitions. -/
theorem pairwise_idxOf_names (definitions : List Definition) :
    (ofDefinitions definitions).names.Pairwise fun m n =>
      (definitions.map Definition.name).idxOf m < (definitions.map Definition.name).idxOf n := by
  induction definitions using List.reverseRecOn with
  | nil => exact .nil
  | append_singleton earlier d ih =>
    have last : (ofDefinitions (earlier ++ [d])).edges =
        setEdges d.name (ascending d.body.references) (ofDefinitions earlier).edges := by
      simp [ofDefinitions, List.foldl_append]
    have old {n : String} (there : n ∈ (ofDefinitions earlier).names) :
        ((earlier ++ [d]).map Definition.name).idxOf n = (earlier.map Definition.name).idxOf n := by
      rw [List.map_append, List.idxOf_append_of_mem (mem_names_iff_mem_map.1 there)]
    have kept : (ofDefinitions earlier).names.Pairwise fun m n =>
        ((earlier ++ [d]).map Definition.name).idxOf m < ((earlier ++ [d]).map Definition.name).idxOf n := by
      refine ih.imp_of_mem fun hm hn less => ?_
      rwa [old hm, old hn]
    rw [names, last, names_setEdges]
    split
    · exact kept
    · next new =>
      refine List.pairwise_append.2 ⟨kept, List.pairwise_singleton _ _, fun m hm n hn => ?_⟩
      obtain rfl := List.mem_singleton.1 hn
      have missing : d.name ∉ earlier.map Definition.name := fun there => new (mem_names_iff_mem_map.2 there)
      have less := List.idxOf_lt_length_of_mem (mem_names_iff_mem_map.1 hm)
      rw [old hm, List.map_append, List.idxOf_append_of_notMem missing]
      omega

theorem exists_walked_prefix {first rest : List String} (split : g.names = first ++ rest)
    (h : g.dependencyOrder = .ok order) :
    ∃ met, met <+: order ∧ (∀ n ∈ first, n ∈ met) ∧ ∀ n ∈ met, ∃ w ∈ first, ReflTransGen g.Edge w n := by
  rw [dependencyOrder_eq, split, walk, List.foldlM_append] at h
  have walked := walked_walk first (.nil g)
  rw [walk] at walked
  cases begun : first.foldlM (fun order n => g.visit (g.edges.length + 1) [] n order) [] with
  | error c =>
    rw [begun] at h
    cases h
  | ok met =>
    rw [begun] at h walked
    obtain ⟨sorted, _, _, done, reached⟩ := walked
    have walked' := walked_walk rest sorted
    change g.walk rest met = _ at h
    rw [h] at walked'
    refine ⟨met, walked'.2.1, fun n hn => done n hn (by simp [split, hn]), fun n hn => ?_⟩
    exact (reached n hn).resolve_left List.not_mem_nil

/-- What comes before a name in the order is needed for it or for a name that was declared before it. -/
theorem exists_reason {before after : List String}
    (h : (ofDefinitions definitions).dependencyOrder = .ok order) (split : order = before ++ m :: after)
    (hn : n ∈ before) :
    ∃ w ∈ definitions.map Definition.name,
      (definitions.map Definition.name).idxOf w ≤ (definitions.map Definition.name).idxOf m ∧
        ReflTransGen (ofDefinitions definitions).Edge w n := by
  obtain ⟨sorted, _⟩ := sorted_dependencyOrder h
  have there : m ∈ (ofDefinitions definitions).names := sorted.defined m (by simp [split])
  obtain ⟨front, back, names_eq⟩ := List.append_of_mem there
  rw [List.append_cons] at names_eq
  obtain ⟨met, early, done, reached⟩ := exists_walked_prefix names_eq h
  have already : n ∈ met := by
    have whole : before ++ [m] <+: order := ⟨after, by simp [split]⟩
    rcases List.prefix_or_prefix_of_prefix whole early with shorter | longer
    · exact shorter.subset (by simp [hn])
    · rcases List.prefix_concat_iff.1 longer with rfl | longer
      · simp [hn]
      · -- the name itself was met, and it is listed only once
        have once := sorted.once
        rw [split, List.nodup_append] at once
        exact absurd rfl (once.2.2 m (longer.subset (done m (by simp))) m (by simp))
  obtain ⟨w, hw, way⟩ := reached n already
  have declared : w ∈ (ofDefinitions definitions).names := by
    rw [names_eq]
    exact List.mem_append_left back hw
  refine ⟨w, mem_names_iff_mem_map.1 declared, ?_, way⟩
  have ordered := pairwise_idxOf_names definitions
  rw [names_eq, List.append_assoc, List.pairwise_append] at ordered
  rcases List.mem_append.1 hw with hw | hw
  · exact Nat.le_of_lt (ordered.2.2 w hw m (by simp))
  · rw [List.mem_singleton.1 hw]

end Declaration

end Graph

/-- There is an order exactly if the references among defined names are acyclic. It has every defined name
once, after all defined names that its definition mentions; and a name that was declared after another comes
before it only if something declared no later than that other one leads to it. Where there is no order the
cycle that is reported is a closed path. -/
theorem dependencyOrder_of_definitions (definitions : List Definition) :
    let found := (Graph.ofDefinitions definitions).dependencyOrder
    let names := definitions.map Definition.name
    let uses := Definition.Uses definitions
    ((∃ order, found = .ok order) ↔ ∀ n, ¬ TransGen (fun m n => uses m n ∧ n ∈ names) n n) ∧
    (∀ order, found = .ok order → order.Nodup ∧ (∀ n, n ∈ order ↔ n ∈ names) ∧
      Follows (fun n m => uses n m ∧ m ∈ names) order ∧
      ∀ before x after, order = before ++ x :: after → ∀ y ∈ before, names.idxOf x < names.idxOf y →
        ∃ z ∈ names, names.idxOf z ≤ names.idxOf x ∧ TransGen uses z y) ∧
    ∀ cycle, found = .error cycle → ClosedPath uses cycle.path := by
  intro found names uses
  have edges : (Graph.ofDefinitions definitions).Edge = uses := by
    ext m n
    exact Graph.edge_iff_uses
  have defined (n : String) : n ∈ (Graph.ofDefinitions definitions).names ↔ n ∈ names :=
    Graph.mem_names_iff_mem_map
  refine ⟨?_, fun order h => ?_, fun cycle h => ?_⟩
  · have inside (m n : String) (h : uses m n) : m ∈ names := by
      rw [← edges] at h
      exact (defined m).1 h.defined
    rw [Graph.dependencyOrder_eq_ok_iff, edges]
    exact forall_congr' fun n => not_congr (transGen_inside_self_iff inside).symm
  · obtain ⟨sorted, all⟩ := Graph.sorted_dependencyOrder h
    have follows := sorted.follows
    simp only [edges, defined] at follows
    refine ⟨sorted.once, fun n => ⟨fun hn => (defined n).1 (sorted.defined n hn), fun hn => all n ((defined n).2 hn)⟩,
      follows, fun before x after split y hy later => ?_⟩
    obtain ⟨z, hz, early, way⟩ := Graph.exists_reason h split hy
    rw [edges] at way
    refine ⟨z, hz, early, ?_⟩
    rcases reflTransGen_iff_eq_or_transGen.1 way with rfl | way
    · exact absurd later (Nat.not_lt.2 early)
    · exact way
  · have closed := Graph.closedPath_dependencyOrder h
    rwa [edges] at closed

/-- Definitions of which one is given twice, so that only the later of its bodies counts. -/
def Definition.revised : List Definition :=
  [⟨"Draft", .reference "Final"⟩, ⟨"Order", .record [⟨"lines", .array (.reference "Line") none⟩]⟩,
    ⟨"Draft", .array (.reference "Order") (some 2)⟩, ⟨"Line", .record [⟨"memo", .reference "Elsewhere"⟩]⟩]

theorem dependencyOrder_of_revised_definitions :
    let names := Definition.revised.map Definition.name
    let knotted := Definition.revised ++ [⟨"Line", .reference "Draft"⟩]
    (Graph.ofDefinitions Definition.revised).dependencyOrder = .ok ["Line", "Order", "Draft"] ∧
      (∃ z ∈ names, names.idxOf z ≤ names.idxOf "Order" ∧ TransGen (Definition.Uses Definition.revised) z "Line") ∧
      ClosedPath (Definition.Uses knotted) ["Draft", "Order", "Line", "Draft"] := by
  intro names knotted
  have found : (Graph.ofDefinitions Definition.revised).dependencyOrder = .ok ["Line", "Order", "Draft"] := rfl
  have cyclic : (Graph.ofDefinitions knotted).dependencyOrder = .error ⟨["Draft", "Order", "Line", "Draft"]⟩ := by
    rfl
  obtain ⟨_, ordered, _⟩ := dependencyOrder_of_definitions Definition.revised
  obtain ⟨_, _, closed⟩ := dependencyOrder_of_definitions knotted
  obtain ⟨_, _, _, reasons⟩ := ordered _ found
  exact ⟨found, reasons ["Line"] "Order" ["Draft"] rfl "Line" (by simp) (by decide), closed _ cyclic⟩

end Calldata

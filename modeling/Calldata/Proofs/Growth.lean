import Mathlib.Data.List.Nodup
import Mathlib.Logic.Relation
import Calldata.Proofs.TreeLayout

/-!
The arena of a resolver over its whole life. Whatever calls are made and whichever of them fail, the
arena is a forest of lawful nodes, and a call adds nodes but never changes one. In a forest the walk
below a node meets every node that can be reached from there exactly once, so the subtree of a node is
strictly ascending and ends with the node.
-/
namespace Calldata

namespace Arena
variable {a : Arena} {id n : NodeId} {fuel : Nat}

def Reaches (a : Arena) : NodeId → NodeId → Prop := Relation.ReflTransGen fun id c => c ∈ a.children id

theorem Forest.le_of_reaches (forest : a.Forest) (h : a.Reaches id n) : n ≤ id := by
  induction h with
  | refl => exact Nat.le_refl id
  | tail _ child ih => exact Nat.le_trans (Nat.le_of_lt (forest.below child)) ih

/-- Of two nodes above a third, one is above the other: the way up is the only one. -/
theorem Forest.reaches_or_reaches (forest : a.Forest) {i j : NodeId} (hi : a.Reaches i n)
    (hj : a.Reaches j n) : a.Reaches i j ∨ a.Reaches j i := by
  have upwards : Relator.RightUnique (Function.swap fun id c => c ∈ a.children id) :=
    fun _ _ _ here there => forest.single here there
  have ways := Relation.ReflTransGen.total_of_right_unique upwards
    (Relation.reflTransGen_swap.2 hi) (Relation.reflTransGen_swap.2 hj)
  exact ways.symm.imp Relation.reflTransGen_swap.1 Relation.reflTransGen_swap.1

theorem Forest.eq_of_reaches_sibling (forest : a.Forest) {c d : NodeId} (hc : c ∈ a.children id)
    (hd : d ∈ a.children id) (h : a.Reaches c d) : c = d := by
  rcases Relation.ReflTransGen.cases_tail h with same | ⟨parent, above, child⟩
  · exact same.symm
  · -- the last step comes from the one parent of `d`, which lies above `c`
    have same : parent = id := forest.single child hd
    have low : id ≤ c := same ▸ forest.le_of_reaches above
    exact absurd (forest.below hc) (Nat.not_lt_of_le low)

theorem Forest.eq_of_common (forest : a.Forest) {c d : NodeId} (hc : c ∈ a.children id)
    (hd : d ∈ a.children id) (below : a.Reaches c n) (below' : a.Reaches d n) : c = d := by
  rcases forest.reaches_or_reaches below below' with h | h
  · exact forest.eq_of_reaches_sibling hc hd h
  · exact (forest.eq_of_reaches_sibling hd hc h).symm

theorem reaches_of_mem_occurrences (h : n ∈ a.occurrences fuel id) : a.Reaches id n := by
  induction fuel generalizing id with
  | zero =>
    rw [occurrences, List.mem_singleton] at h
    exact h ▸ .refl
  | succ fuel ih =>
    rw [occurrences, List.mem_cons, List.mem_flatMap] at h
    rcases h with rfl | ⟨c, hc, h⟩
    · exact .refl
    · exact .head hc (ih h)

theorem Forest.mem_occurrences_iff (forest : a.Forest) (deep : id ≤ fuel) :
    n ∈ a.occurrences fuel id ↔ a.Reaches id n := by
  constructor
  · exact reaches_of_mem_occurrences
  · intro h
    induction h with
    | refl => exact mem_occurrences_self fuel id
    | tail _ child ih => exact children_of_mem_occurrences forest deep ih child

/-- A walk that may go as deep as the node is high is never cut short. -/
theorem Forest.occurrences_eq (forest : a.Forest) (deep : id ≤ fuel) :
    a.occurrences fuel id = a.occurrences id id := by
  induction id using Nat.strongRecOn generalizing fuel with
  | ind id ih =>
    cases fuel with
    | zero => rw [Nat.le_zero.1 deep]
    | succ fuel =>
      cases id with
      | zero =>
        have leaf : a.children 0 = [] :=
          List.eq_nil_iff_forall_not_mem.2 fun c hc => Nat.not_lt_zero c (forest.below hc)
        simp [occurrences, leaf]
      | succ id =>
        rw [occurrences, occurrences]
        refine congrArg _ (List.flatMap_congr fun c hc => ?_)
        have low : c ≤ id := Nat.le_of_lt_succ (forest.below hc)
        rw [ih c (forest.below hc) (Nat.le_trans low (Nat.le_of_succ_le_succ deep)), ih c (forest.below hc) low]

theorem Forest.nodup_occurrences (forest : a.Forest) : (a.occurrences fuel id).Nodup := by
  induction fuel generalizing id with
  | zero => exact List.nodup_singleton id
  | succ fuel ih =>
    rw [occurrences, List.nodup_cons, List.nodup_flatMap]
    refine ⟨fun there => ?_, fun c _ => ih, ?_⟩
    · obtain ⟨c, hc, there⟩ := List.mem_flatMap.1 there
      have low := forest.le_of_reaches (reaches_of_mem_occurrences there)
      exact absurd (forest.below hc) (Nat.not_lt_of_le low)
    · refine (forest.once id).imp_of_mem fun {c d} hc hd different n below below' => different ?_
      exact forest.eq_of_common hc hd (reaches_of_mem_occurrences below) (reaches_of_mem_occurrences below')

theorem Forest.ascending_subtree (forest : a.Forest) : (a.subtree id).Pairwise (· < ·) := by
  have distinct : (a.subtree id).Nodup := (perm_subtree id).nodup_iff.2 forest.nodup_occurrences
  exact (pairwise_subtree id).imp₂ (fun _ _ le ne => Nat.lt_of_le_of_ne le ne) distinct

theorem Forest.mem_subtree_iff (forest : a.Forest) (found : id < a.size) :
    n ∈ a.subtree id ↔ a.Reaches id n :=
  mem_subtree.trans (forest.mem_occurrences_iff (Nat.le_of_lt found))

theorem Forest.getLast?_subtree (forest : a.Forest) (found : id < a.size) :
    (a.subtree id).getLast? = some id := by
  have listed : id ∈ a.subtree id := (forest.mem_subtree_iff found).2 .refl
  obtain ⟨before, after, split⟩ := List.append_of_mem listed
  have ascending := @Forest.ascending_subtree a id forest
  rw [split] at ascending ⊢
  cases after with
  | nil => simp
  | cons n after =>
    have larger : id < n := (List.pairwise_cons.1 (List.pairwise_append.1 ascending).2.1).1 n (by simp)
    have reached : a.Reaches id n := (forest.mem_subtree_iff found).1 (by simp [split])
    exact absurd larger (Nat.not_lt_of_le (forest.le_of_reaches reached))

theorem Forest.nodup_children (forest : a.Forest) : ((List.range a.size).flatMap a.children).Nodup := by
  refine List.nodup_flatMap.2 ⟨fun id _ => forest.once id, ?_⟩
  exact List.nodup_range.imp fun {i j} different c hi hj => different (forest.single hi hj)

end Arena

inductive Call where
  | add (definition : Definition)
  | resolveAll
  | resolveParams (name : String) (params : List Field)

namespace Resolver
variable {r : Resolver}

def after (r : Resolver) : Call → Resolver
  | .add d => (r.add d).toOption.getD r
  | .resolveAll => r.resolveAll.2
  | .resolveParams name params => (r.resolveParams name params).2

def history (calls : List Call) : Resolver := calls.foldl after empty

theorem Reachable.after (h : r.Reachable) (call : Call) : (r.after call).Reachable := by
  cases call with
  | add d =>
    rw [Resolver.after]
    cases added : r.add d with
    | error e => exact h
    | ok r' => exact .add h added
  | resolveAll => exact .resolveAll h
  | resolveParams name params => exact .resolveParams h name params

theorem reachable_foldl (h : r.Reachable) (calls : List Call) :
    (calls.foldl Resolver.after r).Reachable := by
  induction calls generalizing r with
  | nil => exact h
  | cons call rest ih => exact ih (h.after call)

theorem extends_intern (forest : r.arena.Forest) (visiting : List String) (name : String) (body : Ty) :
    r.arena.Extends (r.intern visiting name body).2.arena :=
  (Interning.keeps_internWith (Interning.keeps_expand _ _ _) name (some name) body _ forest _ _ rfl).2.1

theorem extends_resolveList (forest : r.arena.Forest) (names : List String) :
    r.arena.Extends (resolveList names r).2.arena := by
  induction names generalizing r with
  | nil => exact .refl r.arena
  | cons name rest ih =>
    rw [resolveList]
    split
    · next d _ _ =>
      have longer := extends_intern forest [name] name d.body
      have interned := forest_intern forest [name] name d.body
      split
      · next r' eq =>
        rw [eq] at longer
        exact longer
      · next id r' eq =>
        rw [eq] at longer interned
        exact longer.trans
          (@ih { r' with roots := r'.roots ++ [(name, id)], order := r'.order ++ [name] } interned)
    · exact ih forest

theorem Reachable.extends_after (h : r.Reachable) (call : Call) : r.arena.Extends (r.after call).arena := by
  cases call with
  | add d =>
    have same : (r.after (.add d)).arena = r.arena := by
      rw [Resolver.after, Resolver.add]
      split <;> rfl
    exact same ▸ .refl r.arena
  | resolveAll =>
    rw [Resolver.after, Resolver.resolveAll]
    split
    · exact .refl r.arena
    · exact extends_resolveList h.forest _
  | resolveParams name params => exact extends_intern h.forest [] name (.record params)

theorem extends_foldl (h : r.Reachable) (calls : List Call) :
    r.arena.Extends (calls.foldl Resolver.after r).arena := by
  induction calls generalizing r with
  | nil => exact .refl r.arena
  | cons call rest ih => exact (h.extends_after call).trans (ih (h.after call))

end Resolver

/-- After any calls the arena is a forest of lawful nodes: children come before their parents, no node
is mentioned twice as a child, and later calls leave every node as it is. So the walk below a node ends,
and its subtree is the nodes that can be reached from it, each once and the node itself last. -/
theorem arena_forest_of_history (calls : List Call) :
    let a := (Resolver.history calls).arena
    (∀ id c, c ∈ a.children id → c < id) ∧
    ((List.range a.size).flatMap a.children).Nodup ∧
    (∀ id node, a.get? id = some node → node.kind.Lawful) ∧
    (∀ later id, id < a.size → (Resolver.history (calls ++ later)).arena.get? id = a.get? id) ∧
    ∀ id, id < a.size →
      (∀ fuel, a.size ≤ fuel → a.occurrences fuel id = a.occurrences a.size id) ∧
      (a.subtree id).Pairwise (· < ·) ∧
      (∀ n, n ∈ a.subtree id ↔ a.Reaches id n) ∧
      (∀ n ∈ a.subtree id, n < a.size) ∧
      (a.subtree id).getLast? = some id := by
  intro a
  have reachable : (Resolver.history calls).Reachable := Resolver.reachable_foldl .empty calls
  have forest : a.Forest := reachable.forest
  refine ⟨fun _ _ => forest.below, forest.nodup_children, fun _ _ => forest.lawful, ?_, fun id found => ?_⟩
  · intro later id old
    have longer := Resolver.extends_foldl reachable later
    rw [Resolver.history, List.foldl_append]
    exact longer.same old
  · have members (n : NodeId) := @Arena.Forest.mem_subtree_iff a id n forest found
    refine ⟨fun fuel deep => ?_, forest.ascending_subtree, members, fun n hn => ?_, forest.getLast?_subtree found⟩
    · rw [forest.occurrences_eq (by omega : id ≤ fuel), forest.occurrences_eq (Nat.le_of_lt found)]
    · exact Nat.lt_of_le_of_lt (forest.le_of_reaches ((members n).1 hn)) found

/-- A parameter list that is refused at its second field, when the nodes of the first are there, then a
definition and a list that uses it twice. -/
def Call.retried : List Call :=
  [.resolveParams "f" [⟨"a", .array .bytes none⟩, ⟨"a", .bool⟩],
    .add ⟨"Pair", .record [⟨"x", .uint 64⟩, ⟨"y", .enumeration ["on", "off"]⟩]⟩,
    .resolveParams "f" [⟨"a", .array (.reference "Pair") (some 2)⟩, ⟨"b", .reference "Pair"⟩]]

theorem arena_forest_of_retried_history : 9 < (Resolver.history Call.retried).arena.size ∧
    ((Resolver.history Call.retried).arena.subtree 9).getLast? = some 9 ∧
      (Resolver.history (Call.retried ++ [.resolveAll])).arena.get? 9 =
        (Resolver.history Call.retried).arena.get? 9 := by
  have found : 9 < (Resolver.history Call.retried).arena.size := by decide
  obtain ⟨_, _, _, unchanged, walk⟩ := arena_forest_of_history Call.retried
  exact ⟨found, (walk 9 found).2.2.2.2, unchanged [.resolveAll] 9 found⟩

end Calldata

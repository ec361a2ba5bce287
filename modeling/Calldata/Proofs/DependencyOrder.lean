import Mathlib.Data.List.Chain
import Mathlib.Data.List.Nodup
import Mathlib.Logic.Relation
import Calldata.Graph

/-!
The dependency order of definitions. There is one exactly when no definition leads back to itself, and
then it lists every defined name once, after the defined names it refers to. A cycle that is reported is
one, and no shorter one is part of it.
-/
namespace Calldata
open Relation

/-- Different names out of `names`, each with an edge to the next: what a walk is working on. -/
structure Trail (names : List String) (edge : String → String → Prop) (path : List String) : Prop where
  once : path.Nodup
  inside : ∀ n ∈ path, n ∈ names
  chain : path.IsChain edge

namespace Trail
variable {names path : List String} {edge : String → String → Prop} {n : String}

theorem nil : Trail names edge [] := ⟨List.nodup_nil, by simp, .nil⟩

theorem length_le (trail : Trail names edge path) : path.length ≤ names.length :=
  trail.once.length_le_of_subset trail.inside

theorem snoc (trail : Trail names edge path) (leads : ∀ last ∈ path.getLast?, edge last n)
    (new : n ∉ path) (inside : n ∈ names) : Trail names edge (path ++ [n]) where
  once := trail.once.append (List.nodup_singleton n) (List.disjoint_singleton.2 new)
  inside := List.forall_mem_append.2 ⟨trail.inside, by simpa using inside⟩
  chain := List.isChain_append.2 ⟨trail.chain, List.isChain_singleton n, by simpa using leads⟩

/-- A trail that leads to one of its own names goes round from there on. -/
theorem round (trail : Trail names edge path) (leads : ∀ last ∈ path.getLast?, edge last n)
    (again : n ∈ path) : ∃ before after, path = before ++ n :: after ∧ n ∉ before ∧
      (n :: after).Nodup ∧ (n :: after ++ [n]).IsChain edge := by
  obtain ⟨before, after, rfl⟩ := List.append_of_mem again
  obtain ⟨_, once, apart⟩ := List.nodup_append.1 trail.once
  have closed : (before ++ n :: after ++ [n]).IsChain edge :=
    List.isChain_append.2 ⟨trail.chain, List.isChain_singleton n, by simpa using leads⟩
  rw [List.append_assoc] at closed
  exact ⟨before, after, rfl, fun there => apart n there n (by simp) rfl, once, closed.right_of_append⟩

end Trail

theorem transGen_of_isChain {edge : String → String → Prop} {m n : String} {between : List String}
    (chain : (m :: between ++ [n]).IsChain edge) : TransGen edge m n := by
  rw [List.cons_append, List.isChain_cons] at chain
  obtain ⟨first, rest⟩ := chain
  cases between with
  | nil => exact .single (first n (by simp))
  | cons next between =>
    have onwards : ReflTransGen edge next n :=
      List.relationReflTransGen_of_exists_isChain_cons _ rest (by simp)
    exact .head' (first next (by simp)) onwards

theorem transGen_of_again {edge : String → String → Prop} {path : List String} {n : String} (again : n ∈ path)
    (chain : (path ++ [n]).IsChain edge) : TransGen edge n n := by
  obtain ⟨before, after, rfl⟩ := List.append_of_mem again
  rw [List.append_assoc] at chain
  exact transGen_of_isChain chain.right_of_append

theorem transGen_inside_self_iff {edge : String → String → Prop} {names : List String} {n : String}
    (inside : ∀ m n, edge m n → m ∈ names) :
    TransGen (fun m n => edge m n ∧ n ∈ names) n n ↔ TransGen edge n n := by
  have restrict {m n : String} (way : TransGen edge m n) (there : n ∈ names) :
      TransGen (fun m n => edge m n ∧ n ∈ names) m n := by
    induction way with
    | single last => exact .single ⟨last, there⟩
    | @tail x n _ last ih => exact .tail (ih (inside x n last)) ⟨last, there⟩
  constructor
  · intro way
    exact way.lift id fun _ _ edge => edge.1
  · intro way
    obtain ⟨next, first, _⟩ := TransGen.head'_iff.1 way
    exact restrict way (inside n next first)

def Follows (edge : String → String → Prop) (order : List String) : Prop :=
  ∀ before n after, order = before ++ n :: after → ∀ m, edge n m → m ∈ before

theorem Follows.nil (edge : String → String → Prop) : Follows edge [] := by
  intro before n after split
  simp at split

theorem Follows.snoc {edge : String → String → Prop} {order : List String} {n : String}
    (follows : Follows edge order) (ready : ∀ m, edge n m → m ∈ order) : Follows edge (order ++ [n]) := by
  intro before x after split m hm
  rcases List.eq_nil_or_concat after with rfl | ⟨after, last, rfl⟩
  · obtain ⟨rfl, same⟩ := List.append_inj' split rfl
    obtain rfl : n = x := by simpa using same
    exact ready m hm
  · have split : order ++ [n] = (before ++ x :: after) ++ [last] := by simpa using split
    exact follows before x after (List.append_inj' split rfl).1 m hm

theorem lookup_cons_ite {β : Type} (n : String) (e : String × β) (rest : List (String × β)) :
    (e :: rest).lookup n = if n = e.1 then some e.2 else rest.lookup n := by
  rw [List.lookup_cons]
  by_cases same : n = e.1
  · rw [if_pos same, beq_iff_eq.2 same]
  · rw [if_neg same, beq_eq_false_iff_ne.2 same]

theorem mem_keys_iff {β : Type} {n : String} {entries : List (String × β)} :
    n ∈ entries.map Prod.fst ↔ ∃ v, entries.lookup n = some v := by
  induction entries with
  | nil => simp
  | cons e rest ih =>
    rw [List.map_cons, List.mem_cons, lookup_cons_ite, ih]
    by_cases same : n = e.1
    · simp [same]
    · simp [same]

namespace Graph
variable {g : Graph} {path order wanted : List String} {name m n : String}

def names (g : Graph) : List String := g.edges.map Prod.fst

/-- The definition of `m` refers to `n`, which need not be defined. -/
def Edge (g : Graph) (m n : String) : Prop :=
  ∃ referenced, g.edges.lookup m = some referenced ∧ n ∈ referenced

/-- Names listed once, each after the defined names it refers to. -/
structure Sorted (g : Graph) (order : List String) : Prop where
  once : order.Nodup
  defined : ∀ n ∈ order, n ∈ g.names
  follows : Follows (fun n m => g.Edge n m ∧ m ∈ g.names) order

/-- A way from a name back to itself that meets no name twice before it ends. -/
def Cycle.Genuine (g : Graph) (c : Cycle) : Prop :=
  ∃ name others, c.path = name :: others ++ [name] ∧ (name :: others).Nodup ∧ c.path.IsChain g.Edge

theorem mem_names_iff : n ∈ g.names ↔ ∃ referenced, g.edges.lookup n = some referenced :=
  mem_keys_iff

theorem Edge.defined (h : g.Edge m n) : m ∈ g.names := by
  obtain ⟨referenced, found, _⟩ := h
  exact mem_names_iff.2 ⟨referenced, found⟩

theorem Sorted.nil (g : Graph) : g.Sorted [] := ⟨List.nodup_nil, by simp, .nil _⟩

theorem Sorted.snoc (sorted : g.Sorted order) (new : n ∉ order) (defined : n ∈ g.names)
    (ready : ∀ m, g.Edge n m → m ∈ g.names → m ∈ order) : g.Sorted (order ++ [n]) where
  once := sorted.once.append (List.nodup_singleton n) (List.disjoint_singleton.2 new)
  defined := List.forall_mem_append.2 ⟨sorted.defined, by simpa using defined⟩
  follows := sorted.follows.snoc fun m edge => ready m edge.1 edge.2

theorem Sorted.mem_before (sorted : g.Sorted order) {before after : List String}
    (split : order = before ++ n :: after) (leads : TransGen g.Edge n m) (defined : m ∈ g.names) :
    m ∈ before := by
  induction leads with
  | single edge => exact sorted.follows before n after split _ ⟨edge, defined⟩
  | @tail x m _ edge ih =>
    obtain ⟨first, second, rfl⟩ := List.append_of_mem (ih edge.defined)
    have split : order = first ++ x :: (second ++ n :: after) := by simpa using split
    exact List.mem_append_left _ (sorted.follows first x _ split m ⟨edge, defined⟩)

theorem Sorted.acyclic (sorted : g.Sorted order) (all : ∀ n ∈ g.names, n ∈ order) (n : String) :
    ¬ TransGen g.Edge n n := by
  intro leads
  obtain ⟨next, edge, _⟩ := TransGen.head'_iff.1 leads
  obtain ⟨before, after, split⟩ := List.append_of_mem (all n edge.defined)
  have twice := sorted.mem_before split leads edge.defined
  have once := sorted.once
  rw [split, List.nodup_append] at once
  exact once.2.2 n twice n (by simp) rfl

theorem Cycle.Genuine.transGen {c : Cycle} (h : c.Genuine g) : ∃ n, TransGen g.Edge n n := by
  obtain ⟨name, others, eq, _, chain⟩ := h
  exact ⟨name, transGen_of_isChain (eq ▸ chain)⟩

theorem genuine_of_again (trail : Trail g.names g.Edge path)
    (leads : ∀ last ∈ path.getLast?, g.Edge last n) (again : n ∈ path) :
    Cycle.Genuine g ⟨path.dropWhile (· ≠ n) ++ [n]⟩ := by
  obtain ⟨before, after, rfl, unseen, once, closed⟩ := trail.round leads again
  have passed : ∀ x ∈ before, decide (x ≠ n) = true := by
    intro x hx
    exact decide_eq_true fun same => unseen (same ▸ hx)
  have cut : (before ++ n :: after).dropWhile (· ≠ n) = n :: after := by
    rw [List.dropWhile_append_of_pos passed, List.dropWhile_cons_of_neg (by simp)]
  rw [cut]
  exact ⟨n, after, rfl, once, closed⟩

/-- What is known when a walk for the `wanted` names ends that began with `order` and with the names on
`path` still open: the new order, or a cycle. -/
def Walked (g : Graph) (path order wanted : List String) : Except Cycle (List String) → Prop
  | .ok later => g.Sorted later ∧ order <+: later ∧ (∀ n ∈ path, n ∉ later) ∧
      (∀ n ∈ wanted, n ∈ g.names → n ∈ later) ∧
      ∀ n ∈ later, n ∈ order ∨ ∃ w ∈ wanted, ReflTransGen g.Edge w n
  | .error c => c.Genuine g

theorem Walked.stay (sorted : g.Sorted order) (apart : ∀ n ∈ path, n ∉ order)
    (done : ∀ n ∈ wanted, n ∈ g.names → n ∈ order) : g.Walked path order wanted (.ok order) :=
  ⟨sorted, List.prefix_rfl, apart, done, fun _ => .inl⟩

theorem walked_foldlM {step : List String → String → Except Cycle (List String)}
    (each : ∀ w ∈ wanted, ∀ order, g.Sorted order → (∀ n ∈ path, n ∉ order) →
      g.Walked path order [w] (step order w)) (sorted : g.Sorted order) (apart : ∀ n ∈ path, n ∉ order) :
    g.Walked path order wanted (wanted.foldlM step order) := by
  induction wanted generalizing order with
  | nil => exact .stay sorted apart (by simp)
  | cons w rest ih =>
    have first := each w (by simp) order sorted apart
    rw [List.foldlM_cons]
    cases eq : step order w with
    | error c => rwa [eq] at first
    | ok middle =>
      rw [eq] at first
      obtain ⟨sorted, longer, apart, done, reached⟩ := first
      have others := ih (fun x hx => each x (by simp [hx])) sorted apart
      change g.Walked path order (w :: rest) (rest.foldlM step middle)
      cases eq : rest.foldlM step middle with
      | error c => rwa [eq] at others
      | ok later =>
        rw [eq] at others
        obtain ⟨sorted, longer', apart, done', reached'⟩ := others
        refine ⟨sorted, longer.trans longer', apart, ?_, fun n hn => ?_⟩
        · rw [List.forall_mem_cons]
          exact ⟨fun defined => longer'.subset (done w (by simp) defined), done'⟩
        · rcases reached' n hn with old | ⟨x, hx, way⟩
          · rcases reached n old with old | ⟨x, hx, way⟩
            · exact .inl old
            · exact .inr ⟨x, List.mem_singleton.1 hx ▸ List.mem_cons_self, way⟩
          · exact .inr ⟨x, List.mem_cons_of_mem w hx, way⟩

/-- When all that a name refers to is in the order, the name follows. -/
theorem Walked.close {referenced later : List String} (found : g.edges.lookup name = some referenced)
    (fresh : name ∉ path) (inner : g.Walked (path ++ [name]) order referenced (.ok later)) :
    g.Walked path order [name] (.ok (later ++ [name])) := by
  obtain ⟨sorted, longer, apart, done, reached⟩ := inner
  have defined : name ∈ g.names := mem_names_iff.2 ⟨referenced, found⟩
  have new : name ∉ later := apart name (by simp)
  refine ⟨sorted.snoc new defined ?_, longer.trans (List.prefix_append _ _), ?_, by simp, ?_⟩
  · rintro m ⟨referenced', found', hm⟩ hdefined
    rw [found] at found'
    cases found'
    exact done m hm hdefined
  · intro n hn there
    rcases List.mem_append.1 there with old | same
    · exact apart n (by simp [hn]) old
    · exact fresh (List.mem_singleton.1 same ▸ hn)
  · intro n hn
    rcases List.mem_append.1 hn with old | same
    · rcases reached n old with old | ⟨r, hr, way⟩
      · exact .inl old
      · exact .inr ⟨name, by simp, .head ⟨referenced, found, hr⟩ way⟩
    · exact .inr ⟨name, by simp, List.mem_singleton.1 same ▸ .refl⟩

theorem walked_visit {fuel : Nat} (trail : Trail g.names g.Edge path)
    (leads : ∀ last ∈ path.getLast?, g.Edge last name) (deep : g.edges.length < fuel + path.length)
    (sorted : g.Sorted order) (apart : ∀ n ∈ path, n ∉ order) :
    g.Walked path order [name] (g.visit fuel path name order) := by
  induction fuel generalizing path name order with
  | zero =>
    -- there cannot be more open names than defined ones
    have short := trail.length_le
    rw [names, List.length_map] at short
    omega
  | succ fuel ih =>
    rw [visit]
    split
    · next done => exact .stay sorted apart (by simp [done])
    · next new =>
      split
      · next again => exact genuine_of_again trail leads again
      · next fresh =>
        split
        · next missing =>
          refine .stay sorted apart fun n hn defined => ?_
          obtain ⟨referenced, found⟩ := mem_names_iff.1 defined
          rw [List.mem_singleton.1 hn, missing] at found
          cases found
        · next referenced found =>
          have defined : name ∈ g.names := mem_names_iff.2 ⟨referenced, found⟩
          have edge (r : String) (hr : r ∈ referenced) : g.Edge name r := ⟨referenced, found, hr⟩
          have open_ : ∀ n ∈ path ++ [name], n ∉ order := fun n hn => by
            rcases List.mem_append.1 hn with old | last
            · exact apart n old
            · exact List.mem_singleton.1 last ▸ new
          have inner : g.Walked (path ++ [name]) order referenced (referenced.foldlM
              (fun order r => g.visit fuel (path ++ [name]) r order) order) := by
            refine walked_foldlM (fun r hr order sorted apart => ?_) sorted open_
            refine ih (trail.snoc leads fresh defined) (by simpa using edge r hr) ?_ sorted apart
            simp only [List.length_append, List.length_singleton]
            omega
          cases eq : referenced.foldlM (fun order r => g.visit fuel (path ++ [name]) r order) order with
          | error c => rwa [eq] at inner
          | ok later =>
            rw [eq] at inner
            exact .close found fresh inner

def walk (g : Graph) (wanted order : List String) : Except Cycle (List String) :=
  wanted.foldlM (fun order n => g.visit (g.edges.length + 1) [] n order) order

theorem walked_walk (wanted : List String) (sorted : g.Sorted order) :
    g.Walked [] order wanted (g.walk wanted order) := by
  refine walked_foldlM (fun w _ order sorted apart => ?_) sorted (by simp)
  exact walked_visit .nil (by simp) (by simp) sorted apart

theorem dependencyOrder_eq (g : Graph) : g.dependencyOrder = g.walk g.names [] := by
  rw [dependencyOrder, walk, names, List.foldlM_map]

theorem walked_dependencyOrder (g : Graph) : g.Walked [] [] g.names g.dependencyOrder := by
  rw [dependencyOrder_eq]
  exact walked_walk g.names (.nil g)

/-- The order that is found is sorted and has every defined name. -/
theorem sorted_dependencyOrder (h : g.dependencyOrder = .ok order) :
    g.Sorted order ∧ ∀ n ∈ g.names, n ∈ order := by
  have walked := g.walked_dependencyOrder
  rw [h] at walked
  exact ⟨walked.1, fun n hn => walked.2.2.2.1 n hn hn⟩

theorem genuine_dependencyOrder {c : Cycle} (h : g.dependencyOrder = .error c) : c.Genuine g := by
  have walked := g.walked_dependencyOrder
  rwa [h] at walked

/-- There is an order exactly if no definition leads back to itself. -/
theorem dependencyOrder_eq_ok_iff :
    (∃ order, g.dependencyOrder = .ok order) ↔ ∀ n, ¬ TransGen g.Edge n n := by
  constructor
  · rintro ⟨order, h⟩
    obtain ⟨sorted, all⟩ := sorted_dependencyOrder h
    exact sorted.acyclic all
  · intro acyclic
    cases h : g.dependencyOrder with
    | ok order => exact ⟨order, rfl⟩
    | error c =>
      obtain ⟨n, leads⟩ := (genuine_dependencyOrder h).transGen
      exact absurd leads (acyclic n)

theorem mem_insertName {x : String} {names : List String} : x ∈ insertName n names ↔ x = n ∨ x ∈ names := by
  induction names with
  | nil => simp [insertName]
  | cons other rest ih =>
    rw [insertName]
    split
    · next same => simp [same]
    · split
      · simp
      · simp only [List.mem_cons, ih]
        tauto

theorem mem_ascending {names : List String} : n ∈ ascending names ↔ n ∈ names := by
  rw [ascending]
  induction names with
  | nil => simp
  | cons m rest ih => rw [List.foldr_cons, mem_insertName, ih, List.mem_cons]

theorem lookup_setEdges (m : String) (referenced : List String) (edges : List (String × List String)) :
    (setEdges m referenced edges).lookup n = if n = m then some referenced else edges.lookup n := by
  induction edges with
  | nil => rw [setEdges, lookup_cons_ite]
  | cons e rest ih =>
    rw [setEdges]
    split
    · next same =>
      rw [lookup_cons_ite, lookup_cons_ite, same]
      by_cases here : n = e.1
      · rw [if_pos here, if_pos here]
      · rw [if_neg here, if_neg here, if_neg here]
    · next other =>
      rw [lookup_cons_ite, lookup_cons_ite, ih]
      by_cases here : n = e.1
      · have apart : n ≠ m := fun same => other (same.symm.trans here)
        rw [if_pos here, if_neg apart, if_pos here]
      · rw [if_neg here, if_neg here]

theorem lookup_ofDefinitions (definitions : List Definition) (n : String) :
    (ofDefinitions definitions).edges.lookup n =
      (definitions.reverse.find? (·.name == n)).map fun d => ascending d.body.references := by
  induction definitions using List.reverseRecOn with
  | nil => rfl
  | append_singleton earlier d ih =>
    have last : (ofDefinitions (earlier ++ [d])).edges =
        setEdges d.name (ascending d.body.references) (ofDefinitions earlier).edges := by
      simp [ofDefinitions, List.foldl_append]
    rw [last, lookup_setEdges, ih, List.reverse_concat, List.find?_cons]
    by_cases same : n = d.name
    · simp [same]
    · have other : (d.name == n) = false := by simpa using Ne.symm same
      simp [same, other]

end Graph

namespace Definition
variable {definitions : List Definition} {d : Definition} {m n : String}

def Refers (definitions : List Definition) (m n : String) : Prop :=
  ∃ d ∈ definitions, d.name = m ∧ n ∈ d.body.references

theorem find?_eq_some_iff (distinct : (definitions.map name).Nodup) :
    definitions.find? (·.name == n) = some d ↔ d ∈ definitions ∧ d.name = n := by
  constructor
  · intro h
    exact ⟨List.mem_of_find?_eq_some h, by simpa using List.find?_some h⟩
  · rintro ⟨hd, rfl⟩
    cases h : definitions.find? (·.name == d.name) with
    | none => simpa using List.find?_eq_none.1 h d hd
    | some e =>
      have same : e.name = d.name := by simpa using List.find?_some h
      rw [List.inj_on_of_nodup_map distinct (List.mem_of_find?_eq_some h) hd same]

end Definition

namespace Graph
variable {definitions : List Definition} {m n : String}

theorem edge_ofDefinitions (distinct : (definitions.map Definition.name).Nodup) :
    (ofDefinitions definitions).Edge m n ↔ Definition.Refers definitions m n := by
  have distinct' : (definitions.reverse.map Definition.name).Nodup := by
    rwa [List.map_reverse, List.nodup_reverse]
  simp only [Edge, lookup_ofDefinitions, Option.map_eq_some_iff, Definition.find?_eq_some_iff distinct',
    List.mem_reverse, Definition.Refers]
  constructor
  · rintro ⟨_, ⟨d, ⟨hd, rfl⟩, rfl⟩, hn⟩
    exact ⟨d, hd, rfl, mem_ascending.1 hn⟩
  · rintro ⟨d, hd, rfl, hn⟩
    exact ⟨_, ⟨d, ⟨hd, rfl⟩, rfl⟩, mem_ascending.2 hn⟩

theorem mem_names_ofDefinitions : n ∈ (ofDefinitions definitions).names ↔ ∃ d ∈ definitions, d.name = n := by
  simp only [mem_names_iff, lookup_ofDefinitions, Option.map_eq_some_iff]
  constructor
  · rintro ⟨_, d, found, _⟩
    exact ⟨d, List.mem_reverse.1 (List.mem_of_find?_eq_some found), by simpa using List.find?_some found⟩
  · rintro ⟨d, hd, same⟩
    have some : (definitions.reverse.find? (·.name == n)).isSome :=
      List.find?_isSome.2 ⟨d, List.mem_reverse.2 hd, by simpa using same⟩
    obtain ⟨e, found⟩ := Option.isSome_iff_exists.1 some
    exact ⟨_, e, found, rfl⟩

end Graph
end Calldata

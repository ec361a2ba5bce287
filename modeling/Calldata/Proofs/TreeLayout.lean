import Calldata.Arena.Class
import Calldata.Layout.Table
import Calldata.Proofs.Forest
import Calldata.Proofs.Tree
import Calldata.Proofs.Traversal
import Mathlib.Data.List.Sort

/-!
Layouts of type trees. A table that lays out the nodes below a root gives each of them the layout of
its tree, and tells the fields of a record where they stand.
-/
namespace Calldata

theorem exists_left_of_forall₂ {α β : Type} {R : α → β → Prop} {l : List α} {l' : List β}
    (h : List.Forall₂ R l l') {b : β} (hb : b ∈ l') : ∃ a ∈ l, R a b := by
  obtain ⟨k, hk, rfl⟩ := List.getElem_of_mem hb
  have hk' : k < l.length := h.length_eq ▸ hk
  exact ⟨l[k], List.getElem_mem hk', List.Forall₂.get h hk' hk⟩

namespace Arena

/-- The tree below a node, if it is not deeper than `fuel` levels. A tree with a function in it, or
with an array of length zero, has no place in calldata. -/
def treeWithin (a : Arena) : Nat → NodeId → Option Tree
  | 0, _ => none
  | fuel + 1, id => do
    match (← a.get? id).kind with
    | .elementary e => return if e.isDynamic then .bytes else .word
    | .enumeration _ _ => return .word
    | .function => none
    | .array element none => return .dynamic (← a.treeWithin fuel element)
    | .array element (some length) =>
      let t ← a.treeWithin fuel element
      if positive : 0 < length.toNat then return .fixed length.toNat positive t else none
    | .record fields =>
      return .record (← fields.mapM fun f => do return (f.1, ← a.treeWithin fuel f.2))

def tree? (a : Arena) (id : NodeId) : Option Tree := a.treeWithin (a.size + 1) id

/-- What the node of a tree looks like, given the trees of its children. -/
inductive Shows (a : Arena) (tree : NodeId → Option Tree) (id : NodeId) : Tree → Prop
  | word {node : Node} (h : a.get? id = some node) (kind : node.kind.isValue = true) :
      Shows a tree id .word
  | bytes {node : Node} {e : Elementary} (h : a.get? id = some node) (kind : node.kind = .elementary e)
      (dynamic : e.isDynamic = true) : Shows a tree id .bytes
  | fixed {node : Node} {element : NodeId} {length : UInt64} {t : Tree} (h : a.get? id = some node)
      (kind : node.kind = .array element (some length)) (positive : 0 < length.toNat)
      (inner : tree element = some t) : Shows a tree id (.fixed length.toNat positive t)
  | dynamic {node : Node} {element : NodeId} {t : Tree} (h : a.get? id = some node)
      (kind : node.kind = .array element none) (inner : tree element = some t) :
      Shows a tree id (.dynamic t)
  | record {node : Node} {ids : List (String × NodeId)} {fields : List (String × Tree)}
      (h : a.get? id = some node) (kind : node.kind = .record ids)
      (inner : List.Forall₂ (fun i f => i.1 = f.1 ∧ tree i.2 = some f.2) ids fields) :
      Shows a tree id (.record fields)

variable {a : Arena} {id : NodeId} {t : Tree} {fuel : Nat}

theorem treeWithin_succ_iff :
    a.treeWithin (fuel + 1) id = some t ↔ a.Shows (a.treeWithin fuel) id t := by
  rw [treeWithin]
  constructor
  · intro h
    obtain ⟨node, found, h⟩ := Option.bind_eq_some_iff.1 h
    cases kind : node.kind with
    | elementary e =>
      rw [kind] at h
      cases dynamic : e.isDynamic with
      | true =>
        simp only [dynamic, if_true, Option.pure_def, Option.some.injEq] at h
        exact h ▸ .bytes found kind dynamic
      | false =>
        simp only [dynamic, Bool.false_eq_true, if_false, Option.pure_def, Option.some.injEq] at h
        exact h ▸ .word found (by simp [kind, NodeKind.isValue, dynamic])
    | enumeration _ _ =>
      simp only [kind, Option.pure_def, Option.some.injEq] at h
      exact h ▸ .word found (by rw [kind]; rfl)
    | function =>
      rw [kind] at h
      cases h
    | array element length =>
      cases length with
      | none =>
        rw [kind] at h
        obtain ⟨t', inner, h⟩ := Option.bind_eq_some_iff.1 h
        cases h
        exact .dynamic found kind inner
      | some length =>
        rw [kind] at h
        obtain ⟨t', inner, h⟩ := Option.bind_eq_some_iff.1 h
        split at h
        · cases h
          exact .fixed found kind _ inner
        · cases h
    | record ids =>
      rw [kind] at h
      obtain ⟨fields, inner, h⟩ := Option.bind_eq_some_iff.1 h
      cases h
      refine .record found kind ((mapM_some_iff.1 inner).imp fun i f h => ?_)
      obtain ⟨t', inner, h⟩ := Option.bind_eq_some_iff.1 h
      cases h
      exact ⟨rfl, inner⟩
  · intro h
    cases h with
    | word found kind =>
      rw [found]
      rename_i node
      cases node with
      | mk name kind' => cases kind' <;> simp_all [NodeKind.isValue]
    | bytes found kind dynamic => simp [found, kind, dynamic]
    | fixed found kind positive inner => simp [found, kind, inner, positive]
    | dynamic found kind inner => simp [found, kind, inner]
    | record found kind inner =>
      have fields := mapM_some_iff.2 (inner.imp fun i f h =>
        (show (do return (i.1, ← a.treeWithin fuel i.2)) = some f by simp [h.2, h.1]))
      rw [found]
      simp only [Option.bind_eq_bind, Option.bind_some, kind]
      exact Option.bind_eq_some_iff.2 ⟨_, fields, rfl⟩

theorem Shows.mono {tree tree' : NodeId → Option Tree} (h : a.Shows tree id t)
    (more : ∀ i t, tree i = some t → tree' i = some t) : a.Shows tree' id t := by
  cases h with
  | word found kind => exact .word found kind
  | bytes found kind dynamic => exact .bytes found kind dynamic
  | fixed found kind positive inner => exact .fixed found kind positive (more _ _ inner)
  | dynamic found kind inner => exact .dynamic found kind (more _ _ inner)
  | record found kind inner => exact .record found kind (inner.imp fun i f h => ⟨h.1, more _ _ h.2⟩)

theorem treeWithin_succ (h : a.treeWithin fuel id = some t) : a.treeWithin (fuel + 1) id = some t := by
  induction fuel generalizing id t with
  | zero => cases h
  | succ fuel ih => exact treeWithin_succ_iff.2 ((treeWithin_succ_iff.1 h).mono fun _ _ => ih)

theorem shows_of_tree? (h : a.tree? id = some t) : a.Shows a.tree? id t :=
  (treeWithin_succ_iff.1 h).mono fun _ _ => treeWithin_succ

theorem Shows.child (h : a.Shows a.tree? id t) {c : NodeId} (hc : c ∈ a.children id) :
    ∃ t, a.tree? c = some t := by
  cases h with
  | word found kind =>
    rename_i node
    rw [children, found] at hc
    cases node with
    | mk name kind' => cases kind' <;> simp_all [NodeKind.isValue, NodeKind.children]
  | bytes found kind dynamic => simp [children, found, kind, NodeKind.children] at hc
  | fixed found kind positive inner =>
    simp only [children, found, kind, NodeKind.children, List.mem_singleton] at hc
    exact ⟨_, hc ▸ inner⟩
  | dynamic found kind inner =>
    simp only [children, found, kind, NodeKind.children, List.mem_singleton] at hc
    exact ⟨_, hc ▸ inner⟩
  | record found kind inner =>
    simp only [children, found, kind, NodeKind.children, List.mem_map] at hc
    obtain ⟨i, hi, rfl⟩ := hc
    clear kind
    induction inner with
    | nil => cases hi
    | cons first _ ih =>
      rcases List.mem_cons.1 hi with rfl | hi
      · exact ⟨_, first.2⟩
      · exact ih hi

section Subtree

theorem insertId_eq (id : NodeId) (ids : List NodeId) : insertId id ids = ids.orderedInsert (· ≤ ·) id := by
  induction ids with
  | nil => rfl
  | cons other ids ih => simp only [insertId, List.orderedInsert_cons, ih]

theorem subtree_eq (a : Arena) (root : NodeId) :
    a.subtree root = (a.occurrences a.size root).insertionSort (· ≤ ·) := by
  rw [subtree, List.insertionSort, funext₂ insertId_eq]

theorem perm_subtree (root : NodeId) : (a.subtree root).Perm (a.occurrences a.size root) := by
  rw [subtree_eq]
  exact List.perm_insertionSort _ _

theorem mem_subtree {root : NodeId} : id ∈ a.subtree root ↔ id ∈ a.occurrences a.size root :=
  (perm_subtree root).mem_iff

theorem pairwise_subtree (root : NodeId) : (a.subtree root).Pairwise (· ≤ ·) := by
  rw [subtree_eq]
  exact List.pairwise_insertionSort _ _

theorem mem_occurrences_self (fuel : Nat) (id : NodeId) : id ∈ a.occurrences fuel id := by
  cases fuel <;> simp [occurrences]

theorem children_of_mem_occurrences (forest : a.Forest) {root c : NodeId} (deep : root ≤ fuel)
    (h : id ∈ a.occurrences fuel root) (hc : c ∈ a.children id) : c ∈ a.occurrences fuel root := by
  induction fuel generalizing root with
  | zero =>
    rw [occurrences, List.mem_singleton] at h
    exact absurd (Nat.lt_of_lt_of_le (forest.below hc) (h ▸ deep)) (Nat.not_lt_zero c)
  | succ fuel ih =>
    rw [occurrences, List.mem_cons, List.mem_flatMap] at h ⊢
    rcases h with rfl | ⟨child, hchild, h⟩
    · exact .inr ⟨c, hc, mem_occurrences_self fuel c⟩
    · have shallower := Nat.le_of_lt_succ (Nat.lt_of_lt_of_le (forest.below hchild) deep)
      exact .inr ⟨child, hchild, ih shallower h⟩

theorem tree?_of_mem_occurrences {root : NodeId} (tree : ∃ t, a.tree? root = some t)
    (h : id ∈ a.occurrences fuel root) : ∃ t, a.tree? id = some t := by
  induction fuel generalizing root with
  | zero =>
    rw [occurrences, List.mem_singleton] at h
    exact h ▸ tree
  | succ fuel ih =>
    rw [occurrences, List.mem_cons, List.mem_flatMap] at h
    rcases h with rfl | ⟨child, hchild, h⟩
    · exact tree
    · obtain ⟨t, ht⟩ := tree
      exact ih ((shows_of_tree? ht).child hchild) h

theorem lt_size_of_tree? (h : a.tree? id = some t) : id < a.size := by
  by_contra large
  have missing : a.get? id = none := Array.getElem?_eq_none (Nat.le_of_not_lt large)
  cases shows_of_tree? h <;> simp_all

end Subtree
end Arena

namespace Layout

mutual

def ofTree : Tree → Layout
  | .word => .value
  | .bytes => .bytes
  | .fixed n _ t => .ofFixedArray n (ofTree t)
  | .dynamic t => .ofDynamicArray (ofTree t)
  | .record fields => .ofRecord (ofFields fields)

def ofFields : List (String × Tree) → List Layout
  | [] => []
  | (_, t) :: rest => ofTree t :: ofFields rest

end

def unplaced (l : Layout) : Layout :=
  { l with calldataHeadOffset := 0, memoryHeadOffset := 0, isFirstDynamic := false }

theorem unplaced_ofTree (t : Tree) : (ofTree t).unplaced = ofTree t := by
  cases t <;> rfl

end Layout

namespace LayoutTable
variable {a : Arena} {table : LayoutTable} {id : NodeId} {t : Tree}

theorem get?_set (small : id < table.slots.size) (l : Layout) (other : NodeId) :
    (table.set id l).get? other = if other = id then some l else table.get? other := by
  simp only [get?, set, Array.getElem?_setIfInBounds]
  by_cases same : id = other
  · rw [if_pos same, if_pos same.symm, if_pos (same ▸ small)]
    rfl
  · rw [if_neg same, if_neg fun h => same h.symm]

theorem size_set (l : Layout) : (table.set id l).slots.size = table.slots.size := by simp [set]

def Lays (a : Arena) (table : LayoutTable) (ids : List NodeId) : Prop :=
  ∀ id ∈ ids, ∀ t, a.tree? id = some t → table.get? id = some (.ofTree t)

theorem layoutOf_eq (h : a.tree? id = some t) (children : Lays a table (a.children id)) :
    layoutOf a table id = .ok (.ofTree t) := by
  have member (name : String) {c : NodeId} {t : Tree} (hc : c ∈ a.children id) (ht : a.tree? c = some t) :
      table.member name c = .ok (.ofTree t) := by
    rw [LayoutTable.member, children c hc t ht]
  rw [layoutOf]
  cases Arena.shows_of_tree? h with
  | word found kind =>
    rename_i node
    rw [found]
    cases node with
    | mk name kind' =>
      cases kind' with
      | elementary e =>
        have static : e.isDynamic = false := by simpa [NodeKind.isValue] using kind
        simp [static, Layout.ofTree]
      | enumeration _ _ => rfl
      | array _ _ | record _ | function => cases kind
  | bytes found kind dynamic => simp [found, kind, dynamic, Layout.ofTree]
  | fixed found kind positive inner =>
    have child := member (by assumption : Node).name (by simp [Arena.children, found, kind, NodeKind.children]) inner
    simp [found, kind, child, Layout.ofTree, Except.map]
  | dynamic found kind inner =>
    have child := member (by assumption : Node).name (by simp [Arena.children, found, kind, NodeKind.children]) inner
    simp [found, kind, child, Layout.ofTree, Except.map]
  | @record node ids fields found kind inner =>
    have each : ids.mapM (fun f => table.member node.name f.2) = .ok (Layout.ofFields fields) := by
      have there : ∀ i ∈ ids, i.2 ∈ a.children id := fun i hi => by
        simp only [Arena.children, found, kind, NodeKind.children, List.mem_map]
        exact ⟨i, hi, rfl⟩
      clear kind h
      induction inner with
      | nil => rfl
      | cons first _ ih =>
        rw [List.mapM_cons, member _ (there _ (by simp)) first.2,
          ih fun i hi => there i (by simp [hi])]
        rfl
    simp [found, kind, each, Layout.ofTree, Except.map]

/-- Laying out nodes in ascending order: the children of a node are there when it is reached. -/
theorem foldlM_lays (forest : a.Forest) {ids done : List NodeId}
    (ascending : (done ++ ids).Pairwise (· ≤ ·))
    (closed : ∀ id ∈ ids, ∀ c ∈ a.children id, c ∈ done ++ ids)
    (trees : ∀ id ∈ ids, ∃ t, a.tree? id = some t) (room : table.slots.size = a.size)
    (lays : Lays a table done) :
    ∃ table', ids.foldlM (fun t id => do return t.set id (← layoutOf a t id)) table = .ok table' ∧
      table'.slots.size = a.size ∧ Lays a table' (done ++ ids) := by
  induction ids generalizing table done with
  | nil => exact ⟨table, rfl, room, by simpa using lays⟩
  | cons id rest ih =>
    obtain ⟨t, ht⟩ := trees id (by simp)
    have earlier : ∀ c ∈ a.children id, c ∈ done := by
      intro c hc
      refine (List.mem_append.1 (closed id (by simp) c hc)).resolve_right fun later => ?_
      have least := (List.pairwise_append.1 ascending).2.1
      rcases List.mem_cons.1 later with rfl | later
      · exact Nat.lt_irrefl _ (forest.below hc)
      · exact Nat.not_lt_of_le ((List.pairwise_cons.1 least).1 c later) (forest.below hc)
    have laid := layoutOf_eq ht fun c hc => lays c (earlier c hc)
    have small : id < table.slots.size := room ▸ Arena.lt_size_of_tree? ht
    have whole : done ++ id :: rest = (done ++ [id]) ++ rest := by simp
    obtain ⟨table', eq, room', lays'⟩ := @ih (table.set id (.ofTree t)) (done ++ [id]) (whole ▸ ascending)
      (fun x hx c hc => whole ▸ closed x (by simp [hx]) c hc) (fun x hx => trees x (by simp [hx]))
      (by rw [size_set, room]) (fun x hx t' ht' => by
        rw [get?_set small]
        split
        · next same =>
          rw [same, ht] at ht'
          cases ht'
          rfl
        · next other =>
          exact lays x ((List.mem_append.1 hx).resolve_right (by simpa using other)) t' ht')
    refine ⟨table', ?_, room', whole ▸ lays'⟩
    rw [List.foldlM_cons, laid]
    exact eq

section Placing

def Alike (table table' : LayoutTable) : Prop :=
  table'.slots.size = table.slots.size ∧
    ∀ id, (table'.get? id).map Layout.unplaced = (table.get? id).map Layout.unplaced

theorem Alike.trans {t₁ t₂ t₃ : LayoutTable} (h : Alike t₁ t₂) (h' : Alike t₂ t₃) : Alike t₁ t₃ :=
  ⟨h'.1.trans h.1, fun id => (h'.2 id).trans (h.2 id)⟩

theorem lt_size_of_get? {l : Layout} (h : table.get? id = some l) : id < table.slots.size := by
  by_contra large
  rw [get?, Array.getElem?_eq_none (Nat.le_of_not_lt large)] at h
  cases h

theorem get?_place (offset slot : Nat) (first : Bool) (other : NodeId) :
    (table.place id offset slot first).get? other = if other = id then (table.get? id).map fun l => { l with
      calldataHeadOffset := offset, memoryHeadOffset := slot, isFirstDynamic := first }
      else table.get? other := by
  rw [place]
  cases h : table.get? id with
  | none =>
    by_cases same : other = id
    · rw [if_pos same, same]
      exact h
    · rw [if_neg same]
  | some l => exact get?_set (lt_size_of_get? h) _ other

theorem alike_place (offset slot : Nat) (first : Bool) :
    Alike table (table.place id offset slot first) := by
  constructor
  · rw [place]
    split
    · rfl
    · exact size_set _
  · intro other
    rw [get?_place]
    split
    · next same => rw [same, Option.map_map]; rfl
    · rfl

def headOf (table : LayoutTable) (id : NodeId) : Nat :=
  ((table.get? id).map Layout.calldataHeadSize).getD 0

theorem Alike.headOf {table' : LayoutTable} (h : Alike table table') (id : NodeId) :
    table'.headOf id = table.headOf id := by
  have same := congrArg (Option.map Layout.calldataHeadSize) (h.2 id)
  rw [Option.map_map, Option.map_map] at same
  exact congrArg (Option.getD · 0) same

/-- The nodes stand side by side from the given places on. -/
def Stand (table : LayoutTable) : Nat → Nat → List NodeId → Prop
  | _, _, [] => True
  | offset, slot, id :: rest =>
    (∀ l, table.get? id = some l → l.calldataHeadOffset = offset ∧ l.memoryHeadOffset = slot) ∧
      table.Stand (offset + table.headOf id) (slot + wordSize) rest

theorem Stand.congr {table' : LayoutTable} {offset slot : Nat} {ids : List NodeId}
    (h : table.Stand offset slot ids) (same : ∀ id ∈ ids, table'.get? id = table.get? id) :
    table'.Stand offset slot ids := by
  induction ids generalizing offset slot with
  | nil => trivial
  | cons id rest ih =>
    have here := same id (by simp)
    have head : table'.headOf id = table.headOf id := by rw [LayoutTable.headOf, here]; rfl
    exact ⟨here ▸ h.1, head ▸ ih h.2 fun x hx => same x (by simp [hx])⟩

theorem placeFields_spec {ids : List NodeId} (once : ids.Nodup) (offset slot : Nat) (open_ : Bool) :
    Alike table (placeFields offset slot open_ ids table) ∧
      (∀ other, other ∉ ids → (placeFields offset slot open_ ids table).get? other = table.get? other) ∧
      (placeFields offset slot open_ ids table).Stand offset slot ids := by
  induction ids generalizing table offset slot open_ with
  | nil => exact ⟨⟨rfl, fun _ => rfl⟩, fun _ _ => rfl, trivial⟩
  | cons id rest ih =>
    obtain ⟨new, once⟩ := List.nodup_cons.1 once
    rw [placeFields]
    have placed := @alike_place table id offset slot
      (open_ && ((table.get? id).map Layout.dynamic).getD false)
    obtain ⟨alike, others, stand⟩ := @ih (table.place id offset slot
      (open_ && ((table.get? id).map Layout.dynamic).getD false)) once
      (offset + table.headOf id) (slot + wordSize)
      (open_ && !((table.get? id).map Layout.dynamic).getD false)
    have whole := placed.trans alike
    refine ⟨whole, fun other hother => ?_, ?_, ?_⟩
    · rw [List.mem_cons, not_or] at hother
      exact (others other hother.2).trans (by rw [get?_place, if_neg hother.1])
    · intro l hl
      have hl := (others id new).symm.trans hl
      rw [get?_place, if_pos rfl] at hl
      obtain ⟨_, _, rfl⟩ := Option.map_eq_some_iff.1 hl
      exact ⟨rfl, rfl⟩
    · have head := whole.headOf id
      exact head ▸ stand

def Placed (a : Arena) (table : LayoutTable) (id : NodeId) : Prop :=
  ∀ node fields, a.get? id = some node → node.kind = .record fields →
    table.Stand 0 0 (fields.map Prod.snd)

theorem placeChildren_spec (forest : a.Forest) (id : NodeId) :
    Alike table (placeChildren a table id) ∧
      (∀ other, other ∉ a.children id → (placeChildren a table id).get? other = table.get? other) ∧
      Placed a (placeChildren a table id) id := by
  have once := forest.once id
  rw [placeChildren]
  rw [Arena.children] at once ⊢
  cases found : a.get? id with
  | none => exact ⟨⟨rfl, fun _ => rfl⟩, fun _ _ => rfl, fun node fields h => by rw [found] at h; cases h⟩
  | some node =>
    rw [found] at once
    cases kind : node.kind with
    | record fields =>
      simp only [kind, NodeKind.children] at once
      obtain ⟨alike, others, stand⟩ := @placeFields_spec table (fields.map Prod.snd) once 0 0 true
      simp only [Option.map_some, kind, NodeKind.children]
      refine ⟨alike, others, fun node' fields' h kind' => ?_⟩
      rw [found] at h
      cases h
      rw [kind] at kind'
      cases kind'
      exact stand
    | array element length =>
      simp only [kind, NodeKind.children] at once
      obtain ⟨alike, others, _⟩ := @placeFields_spec table [element] once 0 0 true
      simp only [Option.map_some, kind, NodeKind.children]
      refine ⟨alike, others, fun node' fields' h kind' => ?_⟩
      rw [found] at h
      cases h
      rw [kind] at kind'
      cases kind'
    | elementary _ | enumeration _ _ | function =>
      rw [Option.map_some, kind]
      refine ⟨⟨rfl, fun _ => rfl⟩, fun _ _ => rfl, fun node' fields' h kind' => ?_⟩
      rw [found] at h
      cases h
      rw [kind] at kind'
      cases kind'

/-- No node has two parents, so what one parent places the others leave alone. -/
theorem foldl_placeChildren (forest : a.Forest) (ids : List NodeId) :
    Alike table (ids.foldl (placeChildren a) table) ∧
      (∀ id, Placed a table id ∨ id ∈ ids → Placed a (ids.foldl (placeChildren a) table) id) := by
  induction ids generalizing table with
  | nil => exact ⟨⟨rfl, fun _ => rfl⟩, fun id h => h.resolve_right (by simp)⟩
  | cons id rest ih =>
    obtain ⟨alike, others, placed⟩ := @placeChildren_spec a table forest id
    obtain ⟨alike', placed'⟩ := @ih (placeChildren a table id)
    refine ⟨alike.trans alike', fun other h => placed' other ?_⟩
    by_cases same : other = id
    · exact .inl (same ▸ placed)
    · refine h.imp (fun h node fields found kind => ?_) (fun h => (List.mem_cons.1 h).resolve_left same)
      refine (h node fields found kind).congr fun c hc => others c fun there => same ?_
      refine forest.single (c := c) ?_ there
      rw [Arena.children, found]
      simpa [kind, NodeKind.children] using hc

end Placing

/-- The table of a tree: each node has the layout of its tree, at its place. -/
theorem ofTree_spec (forest : a.Forest) {root : NodeId} (h : a.tree? root = some t) :
    ∃ table, ofTree a root = .ok table ∧ ∀ id ∈ a.subtree root,
      (∀ t, a.tree? id = some t → ∃ l, table.get? id = some l ∧ l.unplaced = .ofTree t) ∧
        Placed a table id := by
  have deep : root ≤ a.size := Nat.le_of_lt (Arena.lt_size_of_tree? h)
  obtain ⟨laid, eq, _, lays⟩ := @foldlM_lays a (blank a.size) forest (a.subtree root) []
    (Arena.pairwise_subtree root)
    (fun id hid c hc => by
      rw [List.nil_append, Arena.mem_subtree] at *
      exact Arena.children_of_mem_occurrences forest deep hid hc)
    (fun id hid => Arena.tree?_of_mem_occurrences ⟨t, h⟩ (Arena.mem_subtree.1 hid))
    (by simp [blank]) (by simp [Lays])
  obtain ⟨alike, placed⟩ := @foldl_placeChildren a laid forest (a.subtree root)
  refine ⟨_, ?_, fun id hid => ⟨fun t ht => ?_, placed id (.inr hid)⟩⟩
  · rw [ofTree, ofIds, eq]
    rfl
  · have same := alike.2 id
    rw [lays id hid t ht, Option.map_some, Layout.unplaced_ofTree] at same
    exact Option.map_eq_some_iff.1 same

end LayoutTable
end Calldata

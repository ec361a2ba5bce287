import Calldata.Proofs.Supported
import Mathlib.Algebra.GroupWithZero.Nat

/-!
Places of members in their parents. Sizes are found in one pass over the listed nodes and places in a
second one, which writes into the children. Any ascending list of nodes that is closed under children
can be laid out, and since no node has two parents the places depend on the parent alone: the children
of a listed node stand side by side, and a node whose parent is not listed has no place.
-/
namespace Calldata

namespace Layout

def placed (l : Layout) (offset slot : Nat) (first : Bool) : Layout :=
  { l with calldataHeadOffset := offset, memoryHeadOffset := slot, isFirstDynamic := first }

/-- Layouts side by side from the given places on; `open_` says that no dynamic one stands in front. -/
def row (offset slot : Nat) (open_ : Bool) : List Layout → List Layout
  | [] => []
  | l :: rest => l.placed offset slot (open_ && l.dynamic) ::
      row (offset + l.calldataHeadSize) (slot + wordSize) (open_ && !l.dynamic) rest

variable {members : List Layout}

theorem getElem?_row (offset slot : Nat) (open_ : Bool) (i : Nat) :
    (row offset slot open_ members)[i]? = members[i]?.map fun l =>
      l.placed (offset + ((members.take i).map calldataHeadSize).sum) (slot + wordSize * i)
        (open_ && !(members.take i).any dynamic && l.dynamic) := by
  induction members generalizing offset slot open_ i with
  | nil => simp [row]
  | cons l rest ih =>
    cases i with
    | zero => simp [row]
    | succ i =>
      simp only [row, List.getElem?_cons_succ, ih, List.take_succ_cons, List.map_cons, List.sum_cons, List.any_cons,
        Bool.not_or, Nat.add_assoc, Bool.and_assoc, Nat.mul_succ, Nat.add_comm wordSize]

theorem length_row (offset slot : Nat) (open_ : Bool) :
    (row offset slot open_ members).length = members.length := by
  induction members generalizing offset slot open_ with
  | nil => rfl
  | cons l rest ih => simp [row, ih]

theorem map_calldataHeadSize_row (offset slot : Nat) (open_ : Bool) :
    (row offset slot open_ members).map calldataHeadSize = members.map calldataHeadSize := by
  induction members generalizing offset slot open_ with
  | nil => rfl
  | cons l rest ih => simp [row, ih, placed]

/-- The members fill the head of the layout in calldata without gaps, they have a word each in memory, and
the first dynamic one is marked. -/
structure Tiles (l : Layout) (members : List Layout) : Prop where
  first {m : Layout} : members[0]? = some m → m.calldataHeadOffset = 0
  next {i : Nat} {m m' : Layout} : members[i]? = some m → members[i + 1]? = some m' →
    m'.calldataHeadOffset = m.calldataHeadOffset + m.calldataHeadSize
  last {m : Layout} : (members.map calldataHeadSize).sum < 2 ^ 64 → members.getLast? = some m →
    m.calldataHeadOffset + m.calldataHeadSize = l.memberHeadSizeCalldata
  slots {i : Nat} {m : Layout} : members[i]? = some m → m.memoryHeadOffset = 32 * i
  memory : l.memberHeadSizeMemory = 32 * members.length
  firstDynamic {i : Nat} {m : Layout} : members[i]? = some m → (m.isFirstDynamic = true ↔
    m.dynamic = true ∧ ∀ j < i, ∀ m', members[j]? = some m' → m'.dynamic = false)

theorem total_take_succ {i : Nat} {l : Layout} (h : members[i]? = some l) :
    ((members.take (i + 1)).map calldataHeadSize).sum =
      ((members.take i).map calldataHeadSize).sum + l.calldataHeadSize := by
  rw [List.take_add_one, h, List.map_append, List.sum_append]
  simp

theorem any_take_eq_false {i : Nat} : (members.take i).any dynamic = false ↔
    ∀ j < i, ∀ l, members[j]? = some l → l.dynamic = false := by
  rw [List.any_eq_false]
  constructor
  · intro none j less l hl
    have inside : (members.take i)[j]? = some l := by rw [List.getElem?_take_of_lt less, hl]
    simpa using none l (List.mem_of_getElem? inside)
  · intro none l hl
    obtain ⟨j, inside⟩ := List.getElem?_of_mem hl
    rw [List.getElem?_take] at inside
    split at inside
    · next less => simp [none j less l inside]
    · cases inside

/-- What a record says of the head that it gives its members is what a row of them takes. -/
theorem tiles_row {l : Layout} (same : l.unplaced = ofRecord members) : l.Tiles (row 0 0 true members) := by
  have memberHead : l.memberHeadSizeCalldata = capped (members.map calldataHeadSize).sum :=
    congrArg memberHeadSizeCalldata same
  have memoryHead : l.memberHeadSizeMemory = members.length * wordSize :=
    congrArg memberHeadSizeMemory same
  have at_ {i : Nat} {m : Layout} (h : (row 0 0 true members)[i]? = some m) : ∃ m₀, members[i]? = some m₀ ∧
      m = m₀.placed ((members.take i).map calldataHeadSize).sum (32 * i)
        (!(members.take i).any dynamic && m₀.dynamic) := by
    rw [getElem?_row] at h
    obtain ⟨m₀, h₀, rfl⟩ := Option.map_eq_some_iff.1 h
    exact ⟨m₀, h₀, by simp [wordSize]⟩
  constructor
  case first =>
    intro m h
    obtain ⟨m₀, -, rfl⟩ := at_ h
    rfl
  case next =>
    intro i m m' h h'
    obtain ⟨m₀, h₀, rfl⟩ := at_ h
    obtain ⟨m₁, -, rfl⟩ := at_ h'
    have longer := total_take_succ h₀
    exact longer
  case last =>
    intro m small h
    rw [map_calldataHeadSize_row] at small
    rw [List.getLast?_eq_getElem?, length_row] at h
    obtain ⟨m₀, h₀, rfl⟩ := at_ h
    have nonempty : members.length - 1 + 1 = members.length := by
      have := (List.getElem?_eq_some_iff.1 h₀).1
      omega
    have whole := total_take_succ h₀
    rw [nonempty, List.take_length] at whole
    rw [memberHead, capped, Nat.min_eq_left (by omega)]
    exact whole.symm
  case slots =>
    intro i m h
    obtain ⟨m₀, -, rfl⟩ := at_ h
    rfl
  case memory => rw [memoryHead, length_row, Nat.mul_comm]; rfl
  case firstDynamic =>
    intro i m h
    have earlier : (∀ j < i, ∀ m', (row 0 0 true members)[j]? = some m' → m'.dynamic = false) ↔
        (members.take i).any dynamic = false := by
      rw [any_take_eq_false]
      refine forall₂_congr fun j _ => ?_
      simp only [getElem?_row, Option.map_eq_some_iff, forall_exists_index, and_imp, forall_apply_eq_imp_iff₂]
      rfl
    obtain ⟨m₀, -, rfl⟩ := at_ h
    rw [earlier]
    simp [placed, and_comm]

end Layout

namespace Arena
variable {a : Arena} {ids : List NodeId} {id n : NodeId}

structure Downset (a : Arena) (ids : List NodeId) : Prop where
  ascending : ids.Pairwise (· < ·)
  closed {id c : NodeId} : id ∈ ids → c ∈ a.children id → c ∈ ids

theorem Forest.downset_subtree (forest : a.Forest) (found : id < a.size) : a.Downset (a.subtree id) where
  ascending := forest.ascending_subtree
  closed {n c} listed child := by
    rw [forest.mem_subtree_iff found] at *
    exact listed.tail child

theorem lt_size_of_get? {node : Node} (h : a.get? id = some node) : id < a.size :=
  (Array.getElem?_eq_some_iff.1 h).1

theorem Forest.downset_range (forest : a.Forest) : a.Downset (List.range a.size) where
  ascending := List.pairwise_lt_range
  closed {id c} listed child := by
    rw [List.mem_range] at *
    exact Nat.lt_trans (forest.below child) listed

theorem Downset.mem_of_reaches (down : a.Downset ids) (listed : id ∈ ids) (h : a.Reaches id n) : n ∈ ids := by
  induction h with
  | refl => exact listed
  | tail _ child ih => exact down.closed ih child

def Supports (a : Arena) (id : NodeId) : Prop := ∃ node, a.get? id = some node ∧ node.kind ≠ .function

theorem supports_iff : a.Supports id ↔ id < a.size ∧ ¬ a.IsFunction id := by
  constructor
  · rintro ⟨node, there, kind⟩
    refine ⟨lt_size_of_get? there, ?_⟩
    rintro ⟨_, there', kind'⟩
    rw [there] at there'
    cases there'
    exact kind kind'
  · rintro ⟨found, free⟩
    obtain ⟨node, there⟩ : ∃ node, a.get? id = some node := ⟨_, Array.getElem?_eq_getElem found⟩
    exact ⟨node, there, fun kind => free ⟨node, there, kind⟩⟩

theorem Downset.exists_tree (down : a.Downset ids) (forest : a.Forest) (supports : ∀ n ∈ ids, a.Supports n)
    (listed : id ∈ ids) : ∃ t, a.tree? id = some t := by
  have found := (supports_iff.1 (supports id listed)).1
  refine forest.exists_tree found ((forest.functionFree_iff found).2 ?_)
  rintro ⟨n, reached, function⟩
  exact (supports_iff.1 (supports n (down.mem_of_reaches listed reached))).2 function

def layouts (a : Arena) (ids : List NodeId) : List Layout :=
  ids.filterMap fun id => (a.tree? id).map Layout.ofTree

theorem layouts_cons {t : Tree} (h : a.tree? id = some t) :
    a.layouts (id :: ids) = .ofTree t :: a.layouts ids := by
  rw [layouts, List.filterMap_cons_some (by rw [h]; rfl)]
  rfl

theorem layouts_eq_ofFields {fields : List (String × NodeId)} {trees : List (String × Tree)}
    (inner : List.Forall₂ (fun i f => i.1 = f.1 ∧ a.tree? i.2 = some f.2) fields trees) :
    a.layouts (fields.map Prod.snd) = Layout.ofFields trees := by
  induction inner with
  | nil => rfl
  | cons first _ ih => rw [List.map_cons, layouts_cons first.2, ih]; rfl

end Arena

namespace LayoutTable
variable {a : Arena} {table table' : LayoutTable} {ids : List NodeId} {id n : NodeId} {t : Tree}

theorem get?_set_of_ne (l : Layout) (other : n ≠ id) : (table.set id l).get? n = table.get? n := by
  simp [get?, set, Ne.symm other]

theorem supports_of_layoutOf {l : Layout} (h : layoutOf a table id = .ok l) : a.Supports id := by
  rw [layoutOf] at h
  cases found : a.get? id with
  | none => simp [found] at h
  | some node =>
    refine ⟨node, found, fun kind => ?_⟩
    simp [found, kind] at h

theorem of_foldlM_ok
    (h : ids.foldlM (fun t id => do return t.set id (← layoutOf a t id)) table = .ok table') :
    (∀ id ∈ ids, a.Supports id) ∧ ∀ n, n ∉ ids → table'.get? n = table.get? n := by
  induction ids generalizing table with
  | nil =>
    cases h
    simp
  | cons id rest ih =>
    rw [List.foldlM_cons] at h
    cases laid : layoutOf a table id with
    | error e => simp [laid, bind, Except.bind] at h
    | ok l =>
      simp only [laid, bind, Except.bind, pure, Except.pure] at h
      obtain ⟨supports, others⟩ := ih h
      refine ⟨?_, fun n hn => ?_⟩
      · simp only [List.mem_cons, forall_eq_or_imp]
        exact ⟨supports_of_layoutOf laid, supports⟩
      · rw [List.mem_cons, not_or] at hn
        exact (others n hn.2).trans (get?_set_of_ne l hn.1)

def Has (a : Arena) (table : LayoutTable) (id : NodeId) : Prop :=
  ∃ t, a.tree? id = some t ∧ ∃ l, table.get? id = some l ∧ l.Of t

theorem Alike.has (alike : Alike table table') (h : Has a table id) : Has a table' id := by
  obtain ⟨t, ht, l, hl, of⟩ := h
  have same := alike.2 id
  rw [hl, Option.map_some, of] at same
  exact ⟨t, ht, Option.map_eq_some_iff.1 same⟩

theorem placeChildren_eq (id : NodeId) :
    placeChildren a table id = placeFields 0 0 true (a.children id) table := by
  rw [placeChildren, Arena.children]
  cases a.get? id with
  | none => rfl
  | some node => cases kind : node.kind <;> simp [kind, NodeKind.children, placeFields]

def Shows (table : LayoutTable) : List NodeId → List Layout → Prop :=
  List.Forall₂ fun id l => table.get? id = some l

theorem Shows.congr {ls : List Layout} (h : table.Shows ids ls)
    (same : ∀ id ∈ ids, table'.get? id = table.get? id) : table'.Shows ids ls := by
  induction h with
  | nil => exact .nil
  | cons first _ ih =>
    exact .cons ((same _ List.mem_cons_self).trans first) (ih fun id hid => same id (List.mem_cons_of_mem _ hid))

theorem shows_placeFields (once : ids.Nodup) (each : ∀ id ∈ ids, Has a table id) (offset slot : Nat)
    (open_ : Bool) :
    (placeFields offset slot open_ ids table).Shows ids (Layout.row offset slot open_ (a.layouts ids)) := by
  induction ids generalizing table offset slot open_ with
  | nil => exact .nil
  | cons id rest ih =>
    obtain ⟨new, once⟩ := List.nodup_cons.1 once
    obtain ⟨t, ht, l, hl, of⟩ := each id List.mem_cons_self
    have same : l.unplaced = .ofTree t := of
    have dynamic : l.dynamic = (Layout.ofTree t).dynamic := by rw [← same]; rfl
    have head : l.calldataHeadSize = (Layout.ofTree t).calldataHeadSize := by rw [← same]; rfl
    rw [placeFields, Arena.layouts_cons ht, Layout.row]
    simp only [hl, Option.map_some, Option.getD_some, dynamic, head]
    refine .cons ?_ (ih once (fun n hn => (alike_place _ _ _).has (each n (List.mem_cons_of_mem _ hn))) _ _ _)
    rw [(placeFields_spec once _ _ _).2.1 id new, get?_place, if_pos rfl, hl, ← same]
    rfl

theorem get?_foldl_placeChildren (forest : a.Forest) (apart : ∀ p ∈ ids, n ∉ a.children p) :
    (ids.foldl (placeChildren a) table).get? n = table.get? n := by
  induction ids generalizing table with
  | nil => rfl
  | cons id rest ih =>
    rw [List.foldl_cons, ih fun p hp => apart p (List.mem_cons_of_mem _ hp)]
    exact (placeChildren_spec forest id).2.1 n (apart id List.mem_cons_self)

/-- The last time that a parent places its children counts, and no other parent moves them. -/
theorem shows_foldl_placeChildren (forest : a.Forest) (listed : id ∈ ids)
    (each : ∀ c ∈ a.children id, Has a table c) :
    (ids.foldl (placeChildren a) table).Shows (a.children id)
      (Layout.row 0 0 true (a.layouts (a.children id))) := by
  induction ids generalizing table with
  | nil => cases listed
  | cons p rest ih =>
    rw [List.foldl_cons]
    by_cases later : id ∈ rest
    · exact ih later fun c hc => (placeChildren_spec forest p).1.has (each c hc)
    · obtain rfl := (List.mem_cons.1 listed).resolve_right later
      have placed := shows_placeFields (forest.once id) each 0 0 true
      rw [← placeChildren_eq] at placed
      refine placed.congr fun c hc => get?_foldl_placeChildren forest fun q hq there => later ?_
      exact forest.single there hc ▸ hq

structure Tiled (a : Arena) (ids : List NodeId) (table : LayoutTable) : Prop where
  outside {n : NodeId} : n ∉ ids → table.get? n = none
  has {n : NodeId} : n ∈ ids → Has a table n
  apart {n : NodeId} {t : Tree} : n ∈ ids → (∀ p ∈ ids, n ∉ a.children p) → a.tree? n = some t →
    table.get? n = some (.ofTree t)
  side {p : NodeId} : p ∈ ids →
    table.Shows (a.children p) (Layout.row 0 0 true (a.layouts (a.children p)))

theorem ofIds_spec (forest : a.Forest) (down : a.Downset ids) (supports : ∀ n ∈ ids, a.Supports n) :
    ∃ table, ofIds a ids = .ok table ∧ Tiled a ids table := by
  have trees (n : NodeId) (hn : n ∈ ids) := down.exists_tree forest supports hn
  obtain ⟨laid, eq, _, lays⟩ := @foldlM_lays a (blank a.size) forest ids []
    (down.ascending.imp fun {_ _} => Nat.le_of_lt) (fun _ hid _ hc => down.closed hid hc) trees
    (by simp [blank]) (by simp [Lays])
  have has (n : NodeId) (hn : n ∈ ids) : Has a laid n := by
    obtain ⟨t, ht⟩ := trees n hn
    exact ⟨t, ht, _, lays n hn t ht, Layout.unplaced_ofTree t⟩
  have alike := (@foldl_placeChildren a laid forest ids).1
  refine ⟨ids.foldl (placeChildren a) laid, by rw [ofIds, eq]; rfl, ?_, ?_, ?_, ?_⟩
  · intro n hn
    have nowhere (p : NodeId) (hp : p ∈ ids) : n ∉ a.children p := fun child => hn (down.closed hp child)
    rw [get?_foldl_placeChildren forest nowhere, (of_foldlM_ok eq).2 n hn]
    simp only [get?, blank, Array.getElem?_replicate]
    split <;> rfl
  · intro n hn
    exact alike.has (has n hn)
  · intro n t hn nowhere ht
    rw [get?_foldl_placeChildren forest nowhere]
    exact lays n hn t ht
  · intro p hp
    exact shows_foldl_placeChildren forest hp fun c hc => has c (down.closed hp hc)

theorem supports_of_ofIds (h : ofIds a ids = .ok table) : ∀ n ∈ ids, a.Supports n := by
  rw [ofIds] at h
  cases laid : ids.foldlM (fun t id => do return t.set id (← layoutOf a t id)) (blank a.size) with
  | error e =>
    rw [laid] at h
    cases h
  | ok laid' => exact (of_foldlM_ok laid).1

theorem tiled_of_ofIds (forest : a.Forest) (down : a.Downset ids) (h : ofIds a ids = .ok table) :
    Tiled a ids table := by
  obtain ⟨table', ok, tiled⟩ := ofIds_spec forest down (supports_of_ofIds h)
  rw [h] at ok
  cases ok
  exact tiled

theorem lt_size_of_ofTree (h : ofTree a id = .ok table) : id < a.size :=
  (Arena.supports_iff.1 (supports_of_ofIds h id (Arena.mem_subtree.2 (Arena.mem_occurrences_self _ id)))).1

/-- Two tables that list the parent of a node say the same of the node. -/
theorem Tiled.get?_eq {ids' : List NodeId} (here : Tiled a ids table) (there : Tiled a ids' table') {p : NodeId}
    (hp : p ∈ ids) (hp' : p ∈ ids') (child : n ∈ a.children p) :
    ∃ l, table.get? n = some l ∧ table'.get? n = some l := by
  have side := here.side hp
  have side' := there.side hp'
  obtain ⟨k, hk, rfl⟩ := List.getElem_of_mem child
  have inside := side.length_eq ▸ hk
  exact ⟨_, side.get hk inside, side'.get hk inside⟩

theorem Tiled.listed (tiled : Tiled a ids table) {l : Layout} (laid : table.get? id = some l) : id ∈ ids := by
  by_contra outside
  rw [tiled.outside outside] at laid
  cases laid

theorem Tiled.members (tiled : Tiled a ids table) {node : Node} {fields : List (String × NodeId)} {l : Layout}
    (found : a.get? id = some node) (kind : node.kind = .record fields) (laid : table.get? id = some l) :
    ∃ members, table.Shows (fields.map Prod.snd) (Layout.row 0 0 true members) ∧
      l.unplaced = .ofRecord members := by
  have listed := tiled.listed laid
  have children : a.children id = fields.map Prod.snd := by
    rw [Arena.children, found]
    simp [kind, NodeKind.children]
  have side := tiled.side listed
  rw [children] at side
  refine ⟨_, side, ?_⟩
  obtain ⟨t, ht, l', laid', of⟩ := tiled.has listed
  rw [laid] at laid'
  cases laid'
  cases Arena.shows_of_tree? ht with
  | record found' kind' inner =>
    rw [found] at found'
    cases found'
    rw [kind] at kind'
    cases kind'
    rw [Arena.layouts_eq_ofFields inner]
    exact of
  | word found' kind' =>
    rw [found] at found'
    cases found'
    simp [kind, NodeKind.isValue] at kind'
  | bytes found' kind' | fixed found' kind' | dynamic found' kind' =>
    rw [found] at found'
    cases found'
    rw [kind] at kind'
    cases kind'

theorem Tiled.tiles (tiled : Tiled a ids table) {node : Node} {fields : List (String × NodeId)} {l : Layout}
    (found : a.get? id = some node) (kind : node.kind = .record fields) (laid : table.get? id = some l) :
    ∃ members, table.Shows (fields.map Prod.snd) members ∧ l.Tiles members := by
  obtain ⟨members, side, of⟩ := tiled.members found kind laid
  exact ⟨_, side, Layout.tiles_row of⟩

end LayoutTable

/-- After any calls that left no function type in the arena, laying out the whole arena and laying out the
tree below a node both succeed. The two tables say the same of all nodes below the root; of the root itself
the second one says what the first says, without a place, and that is the same if the root is no one's
child. It holds nothing else. -/
theorem subtree_layouts_of_history (calls : List Call)
    (free : ∀ n, n < (Resolver.history calls).arena.size → ¬ (Resolver.history calls).arena.IsFunction n)
    (root : NodeId) (found : root < (Resolver.history calls).arena.size) :
    let a := (Resolver.history calls).arena
    ∃ whole part, LayoutTable.ofArena a = .ok whole ∧ LayoutTable.ofTree a root = .ok part ∧
      (∀ n ∈ a.subtree root, n ≠ root → ∃ l, whole.get? n = some l ∧ part.get? n = some l) ∧
      (∃ l, whole.get? root = some l ∧ part.get? root = some l.unplaced ∧
        ((∀ p, root ∉ a.children p) → l.unplaced = l)) ∧
      ∀ n, n ∉ a.subtree root → part.get? n = none := by
  intro a
  have forest : a.Forest := (Resolver.reachable_foldl .empty calls).forest
  have supports (n : NodeId) (small : n < a.size) : a.Supports n := Arena.supports_iff.2 ⟨small, free n small⟩
  have inside (n : NodeId) (hn : n ∈ a.subtree root) : n < a.size := forest.lt_of_mem_subtree found hn
  obtain ⟨whole, okWhole, tiledWhole⟩ := LayoutTable.ofIds_spec forest forest.downset_range
    fun n hn => supports n (List.mem_range.1 hn)
  obtain ⟨part, okPart, tiledPart⟩ := LayoutTable.ofIds_spec forest (forest.downset_subtree found)
    fun n hn => supports n (inside n hn)
  refine ⟨whole, part, okWhole, okPart, fun n hn other => ?_, ?_, fun n => tiledPart.outside⟩
  · -- the way from the root to another node ends with a step from a parent below the root
    have reached := (forest.mem_subtree_iff found).1 hn
    obtain same | ⟨p, above, child⟩ := Relation.ReflTransGen.cases_tail reached
    · exact absurd same other
    · have listed := (forest.mem_subtree_iff found).2 above
      exact tiledWhole.get?_eq tiledPart (List.mem_range.2 (inside p listed)) listed child
  · have listed := List.mem_range.2 found
    have top : root ∈ a.subtree root := (forest.mem_subtree_iff found).2 .refl
    obtain ⟨t, ht, l, laid, of⟩ := tiledWhole.has listed
    have alone (p : NodeId) (hp : p ∈ a.subtree root) : root ∉ a.children p := fun child =>
      Nat.not_lt_of_le (forest.le_of_reaches ((forest.mem_subtree_iff found).1 hp)) (forest.below child)
    refine ⟨l, laid, of ▸ tiledPart.apart top alone ht, fun orphan => ?_⟩
    have same := tiledWhole.apart listed (fun p _ => orphan p) ht
    rw [laid, ← of] at same
    exact (Option.some.inj same).symm

/-- A field of the last list, in an arena that also holds what a refused list left behind. -/
theorem subtree_layouts_of_retried_history :
    let a := (Resolver.history Call.retried).arena
    8 ∈ a.children 9 ∧ 7 ∈ a.subtree 8 ∧ ∃ whole part, LayoutTable.ofArena a = .ok whole ∧
      LayoutTable.ofTree a 8 = .ok part ∧ (∃ l, whole.get? 7 = some l ∧ part.get? 7 = some l) ∧
      (∃ l, whole.get? 8 = some l ∧ part.get? 8 = some l.unplaced) ∧ part.get? 0 = none := by
  intro a
  obtain ⟨whole, part, okWhole, okPart, below, ⟨l, laid, laid', _⟩, outside⟩ :=
    subtree_layouts_of_history Call.retried (by decide) 8 (by decide)
  exact ⟨by decide, by decide, whole, part, okWhole, okPart, below 7 (by decide) (by decide), ⟨l, laid, laid'⟩,
    outside 0 (by decide)⟩

/-- In every table of an arena that a resolver filled, of the whole arena or of one tree, the fields of a
record tile the head that it gives its members. -/
theorem fields_tile_of_history (calls : List Call) (table : LayoutTable) (id : NodeId) (node : Node)
    (fields : List (String × NodeId)) (l : Layout)
    (computed : LayoutTable.ofArena (Resolver.history calls).arena = .ok table ∨
      ∃ root, LayoutTable.ofTree (Resolver.history calls).arena root = .ok table)
    (found : (Resolver.history calls).arena.get? id = some node) (kind : node.kind = .record fields)
    (laid : table.get? id = some l) :
    ∃ members, table.Shows (fields.map Prod.snd) members ∧ l.Tiles members := by
  have forest : (Resolver.history calls).arena.Forest := (Resolver.reachable_foldl .empty calls).forest
  rcases computed with ok | ⟨root, ok⟩
  · exact (LayoutTable.tiled_of_ofIds forest forest.downset_range ok).tiles found kind laid
  · have down := forest.downset_subtree (LayoutTable.lt_size_of_ofTree ok)
    exact (LayoutTable.tiled_of_ofIds forest down ok).tiles found kind laid

/-- A list with static and dynamic fields, the first of them wider than a word. -/
def Call.blended : List Call :=
  [.resolveParams "f" [⟨"a", .array (.uint 8) (some 3)⟩, ⟨"b", .bytes⟩, ⟨"c", .array .bool none⟩, ⟨"d", .bool⟩]]

theorem fields_tile_of_blended_history :
    let a := (Resolver.history Call.blended).arena
    ∃ table l members, LayoutTable.ofTree a 6 = .ok table ∧ table.get? 6 = some l ∧
      l.memberHeadSizeCalldata = 192 ∧ table.Shows [1, 2, 4, 5] members ∧ l.Tiles members := by
  intro a
  have evaluated : ((LayoutTable.ofTree a 6).toOption.bind (·.get? 6)).map Layout.memberHeadSizeCalldata =
      some 192 := by
    decide
  cases computed : LayoutTable.ofTree a 6 with
  | error e => simp [computed, Except.toOption] at evaluated
  | ok table =>
    rw [computed] at evaluated
    obtain ⟨l, laid, head⟩ := Option.map_eq_some_iff.1 evaluated
    obtain ⟨members, shows, tiles⟩ :=
      fields_tile_of_history Call.blended table 6 _ _ l (.inr ⟨6, computed⟩) rfl rfl laid
    exact ⟨table, l, members, rfl, laid, head, shows, tiles⟩

end Calldata

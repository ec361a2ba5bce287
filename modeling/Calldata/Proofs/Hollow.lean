import Calldata.Proofs.Decode
import Calldata.Proofs.Supported
import Mathlib.Algebra.GroupWithZero.Nat

/-!
The least value of a type, in which every byte string and every array without a length is empty. A
layout counts the bytes of its encoding and of its body in memory, as far as counts go.
-/
namespace Calldata

namespace Value

mutual

/-- Every byte string and every array that carries its length is empty. -/
def Hollow : Value → Prop
  | .word _ => True
  | .bytes content _ => content = []
  | .tuple parts => HollowEach parts
  | .list parts => parts = []

def HollowEach : List Value → Prop
  | [] => True
  | v :: rest => v.Hollow ∧ HollowEach rest

end

theorem hollowEach_iff {parts : List Value} : HollowEach parts ↔ ∀ v ∈ parts, v.Hollow := by
  induction parts with
  | nil => simp [HollowEach]
  | cons v rest ih => simp [HollowEach, ih]

theorem extents_mono {vs ws : List Value}
    (h : List.Forall₂ (fun v w => v.isDynamic = w.isDynamic ∧ v.extent ≤ w.extent) vs ws) :
    extents vs ≤ extents ws := by
  induction h with
  | nil => exact Nat.le_refl _
  | cons first _ ih =>
    rw [extents, extents, first.1]
    exact Nat.add_le_add (Nat.add_le_add_left first.2 _) ih

def tailSize (v : Value) : Nat := if v.isDynamic then v.extent else 0

theorem headSizes_eq (parts : List Value) : headSizes parts = (parts.map headSize).sum := by
  induction parts with
  | nil => rfl
  | cons v rest ih => rw [headSizes, ih, List.map_cons, List.sum_cons]

theorem tailSizes_eq (parts : List Value) : tailSizes parts = (parts.map tailSize).sum := by
  induction parts with
  | nil => rfl
  | cons v rest ih => rw [tailSizes, ih, List.map_cons, List.sum_cons, tailSize]

theorem bodySizes_eq (parts : List Value) : bodySizes parts = (parts.map bodySize).sum := by
  induction parts with
  | nil => rfl
  | cons v rest ih => rw [bodySizes_cons, ih, List.map_cons, List.sum_cons]

theorem bodySizes_replicate (n : Nat) (v : Value) : bodySizes (List.replicate n v) = n * v.bodySize := by
  rw [bodySizes_eq, List.map_replicate, List.sum_replicate_nat]

end Value

namespace Tree

mutual

/-- The value with nothing in its byte strings and arrays without a length, and zeros elsewhere. -/
def hollow : Tree → Value
  | .word => .word 0
  | .bytes => .bytes [] Cell.unknown
  | .fixed n _ t => .tuple (List.replicate n t.hollow)
  | .dynamic _ => .list []
  | .record fields => .tuple (hollows fields)

def hollows : List (String × Tree) → List Value
  | [] => []
  | (_, t) :: rest => t.hollow :: hollows rest

end

variable {t : Tree} {v w : Value}

theorem hollows_eq (fields : List (String × Tree)) : hollows fields = fields.map fun f => f.2.hollow := by
  induction fields with
  | nil => rfl
  | cons f rest ih => rw [hollows, ih, List.map_cons]

theorem holds_hollow (t : Tree) : t.Holds t.hollow := by
  induction t using Tree.induction with
  | word => exact Nat.pow_pos (by decide)
  | bytes => rfl
  | fixed n positive t ih =>
    refine ⟨List.length_replicate, fun v hv => ?_⟩
    rw [List.eq_of_mem_replicate hv]
    exact ih
  | dynamic t ih =>
    intro v hv
    cases hv
  | record fields ih =>
    show HoldsEach fields (hollows fields)
    rw [holdsEach_iff, hollows_eq, List.forall₂_map_right_iff]
    exact List.forall₂_same.2 ih

theorem hollow_hollow (t : Tree) : t.hollow.Hollow := by
  induction t using Tree.induction with
  | word => trivial
  | bytes | dynamic => rfl
  | fixed n positive t ih =>
    refine Value.hollowEach_iff.2 fun v hv => ?_
    rw [List.eq_of_mem_replicate hv]
    exact ih
  | record fields ih =>
    refine Value.hollowEach_iff.2 fun v hv => ?_
    rw [hollows_eq] at hv
    obtain ⟨f, hf, rfl⟩ := List.mem_map.1 hv
    exact ih f hf

theorem Holds.isDynamic (h : t.Holds v) : v.isDynamic = t.isDynamic := (reads_of_holds h false).isDynamic.symm

theorem Holds.headSize (h : t.Holds v) : v.headSize = t.headSize := (reads_of_holds h false).headSize.symm

/-- A hollow value has the shortest encoding of all values of its type. -/
theorem extent_le_of_hollow (hv : t.Holds v) (hw : t.Holds w) (hollow : v.Hollow) : v.extent ≤ w.extent := by
  induction t using Tree.induction generalizing v w with
  | word =>
    cases v <;> try exact hv.elim
    cases w <;> try exact hw.elim
    exact Nat.le_refl _
  | bytes =>
    cases v <;> try exact hv.elim
    cases w <;> try exact hw.elim
    cases (show _ = [] from hollow)
    exact Nat.le_add_right _ _
  | fixed n positive t ih =>
    cases v <;> try exact hv.elim
    cases w <;> try exact hw.elim
    rename_i vs ws
    obtain ⟨length, each⟩ := hv
    obtain ⟨length', each'⟩ := hw
    refine Value.extents_mono (List.forall₂_iff_get.2 ⟨length.trans length'.symm, fun i hi hi' => ?_⟩)
    have here := each _ (List.get_mem vs ⟨i, hi⟩)
    have there := each' _ (List.get_mem ws ⟨i, hi'⟩)
    exact ⟨here.isDynamic.trans there.isDynamic.symm,
      ih here there (Value.hollowEach_iff.1 hollow _ (List.get_mem vs ⟨i, hi⟩))⟩
  | dynamic t ih =>
    cases v <;> try exact hv.elim
    cases w <;> try exact hw.elim
    cases (show _ = [] from hollow)
    exact Nat.le_add_right _ _
  | record fields ih =>
    cases v <;> try exact hv.elim
    cases w <;> try exact hw.elim
    rename_i vs ws
    have pairs := holdsEach_iff.1 hv
    have pairs' := holdsEach_iff.1 hw
    refine Value.extents_mono (List.forall₂_iff_get.2
      ⟨pairs.length_eq.symm.trans pairs'.length_eq, fun i hi hi' => ?_⟩)
    have inside : i < fields.length := pairs.length_eq ▸ hi
    have here := pairs.get inside hi
    have there := pairs'.get inside hi'
    exact ⟨here.isDynamic.trans there.isDynamic.symm, ih _ (List.get_mem fields ⟨i, inside⟩) here there
      (Value.hollowEach_iff.1 hollow _ (List.get_mem vs ⟨i, hi⟩))⟩

theorem extent_hollow_le (h : t.Holds v) : t.hollow.extent ≤ v.extent :=
  extent_le_of_hollow t.holds_hollow h t.hollow_hollow

theorem Holds.extent_of_hollow (h : t.Holds v) (hollow : v.Hollow) : v.extent = t.hollow.extent :=
  Nat.le_antisymm (extent_le_of_hollow h t.holds_hollow hollow) (extent_hollow_le h)

theorem Holds.extent_of_static (h : t.Holds v) (static : t.isDynamic = false) : v.extent = t.headSize := by
  rw [← h.headSize, Value.headSize, h.isDynamic, static]
  rfl

def tailSize (t : Tree) : Nat := if t.isDynamic then t.hollow.extent else 0

theorem tailSize_hollow (t : Tree) : t.hollow.tailSize = t.tailSize := by
  rw [Value.tailSize, t.holds_hollow.isDynamic]
  rfl

theorem extent_fixed {n : Nat} {positive : 0 < n} :
    (fixed n positive t).hollow.extent = n * t.headSize + n * t.tailSize := by
  rw [hollow, Value.extent, Value.extents_eq, Value.headSizes_eq, Value.tailSizes_eq, List.map_replicate,
    List.map_replicate, List.sum_replicate_nat, List.sum_replicate_nat, t.holds_hollow.headSize, tailSize_hollow]

theorem extent_record (fields : List (String × Tree)) :
    (record fields).hollow.extent = headSizes fields + (fields.map fun f => f.2.tailSize).sum := by
  have heads : Value.headSizes (hollows fields) = headSizes fields := by
    induction fields with
    | nil => rfl
    | cons f rest ih => rw [hollows, Value.headSizes, headSizes, ih, f.2.holds_hollow.headSize]
  have tails : (hollows fields).map Value.tailSize = fields.map fun f => f.2.tailSize := by
    rw [hollows_eq, List.map_map]
    exact List.map_congr_left fun f _ => tailSize_hollow f.2
  rw [hollow, Value.extent, Value.extents_eq, heads, Value.tailSizes_eq, tails]

theorem size_fixed {n : Nat} {positive : 0 < n} :
    (fixed n positive t).hollow.size = n * 32 + n * t.hollow.bodySize := by
  rw [hollow, Value.size, List.length_replicate, Value.bodySizes_replicate, Nat.mul_comm]

theorem size_record (fields : List (String × Tree)) :
    (record fields).hollow.size = fields.length * 32 + (fields.map fun f => f.2.hollow.bodySize).sum := by
  rw [hollow, Value.size, Value.bodySizes_eq, hollows_eq, List.map_map, List.length_map, Nat.mul_comm]
  rfl

end Tree

theorem capped_total_congr {α : Type} {xs : List α} {f g : α → Nat} (each : ∀ x ∈ xs, capped (f x) = capped (g x)) :
    capped (xs.map f).sum = capped (xs.map g).sum := by
  induction xs with
  | nil => rfl
  | cons x rest ih =>
    have first := each x List.mem_cons_self
    have later := ih fun y hy => each y (List.mem_cons_of_mem _ hy)
    rw [List.map_cons, List.map_cons, List.sum_cons, List.sum_cons]
    unfold capped at *
    omega

theorem capped_mul_congr {n : Nat} (positive : 0 < n) {x y : Nat} (h : capped x = capped y) :
    capped (n * x) = capped (n * y) := by
  rw [← capped_mul_capped positive x, h, capped_mul_capped positive]

theorem capped_add_congr {x x' y y' : Nat} (h : capped x = capped x') (h' : capped y = capped y') :
    capped (x + y) = capped (x' + y') := by
  unfold capped at *
  omega

theorem capped_capped (n : Nat) : capped (capped n) = capped n := by
  unfold capped
  omega

theorem capped_of_lt {n : Nat} (small : n < 2 ^ 64) : capped n = n := Nat.min_eq_left (by omega)

theorem capped_le (n : Nat) : capped n ≤ n := Nat.min_le_left _ _

namespace Layout

theorem tailSize_ofTree (t : Tree) : (ofTree t).calldataTailSize = capped t.tailSize := by
  induction t using Tree.induction with
  | word | bytes | dynamic => rfl
  | fixed n positive t ih =>
    have dynamic := dynamic_ofTree t
    rw [Tree.tailSize, Tree.extent_fixed, Tree.isDynamic, ofTree, ofFixedArray]
    simp only [dynamic, headSize_ofTree, ih, capped_mul_capped positive, capped_add_capped]
    split
    · exact capped_add_congr (capped_capped _) rfl
    · rfl
  | record fields ih =>
    have dynamic : (ofFields fields).any Layout.dynamic = Tree.anyDynamic fields :=
      dynamic_ofTree (.record fields)
    have heads := capped_total fields fun f _ => headSize_ofTree f.2
    have tails : capped ((ofFields fields).map calldataTailSize).sum =
        capped (fields.map fun f => f.2.tailSize).sum := by
      rw [ofFields_eq, List.map_map]
      refine capped_total_congr fun f hf => ?_
      rw [Function.comp_apply, ih f hf, capped_capped]
    rw [Tree.tailSize, Tree.extent_record, Tree.isDynamic, ofTree, ofRecord]
    simp only [dynamic, ← List.sum_eq_foldr, heads, tails, capped_add_capped]
    split
    · exact capped_add_congr (capped_capped _) rfl
    · rfl

/-- The body in calldata is the encoding of the hollow value. -/
theorem calldataBodySize_ofTree (t : Tree) : (ofTree t).calldataBodySize = capped t.hollow.extent := by
  rw [calldataBodySize, dynamic_ofTree, tailSize_ofTree, headSize_ofTree, Tree.tailSize]
  cases static : t.isDynamic with
  | true => rfl
  | false =>
    rw [t.holds_hollow.extent_of_static static]
    rfl

theorem minimumBytes_ofTree (t : Tree) :
    (ofTree t).minimumBytes = capped ((ofTree t).calldataHeadSize + (ofTree t).calldataTailSize) := by
  cases t <;> rfl

theorem bodyBeyondWord_ofTree (t : Tree) : capped (ofTree t).bodyBeyondWord = capped t.hollow.bodySize := by
  induction t using Tree.induction with
  | word | bytes | dynamic => rfl
  | fixed n positive t ih =>
    have size : (Tree.fixed n positive t).hollow.bodySize = n * 32 + n * t.hollow.bodySize :=
      @Tree.size_fixed t n positive
    rw [size]
    exact capped_add_congr (capped_capped _) ((capped_capped _).trans (capped_mul_congr positive ih))
  | record fields ih =>
    have size : (Tree.record fields).hollow.bodySize =
        fields.length * 32 + (fields.map fun f => f.2.hollow.bodySize).sum := Tree.size_record fields
    have heads : (ofFields fields).length = fields.length := by rw [ofFields_eq, List.length_map]
    have bodies : capped ((ofFields fields).map bodyBeyondWord).sum =
        capped (fields.map fun f => f.2.hollow.bodySize).sum := by
      rw [ofFields_eq, List.map_map]
      exact capped_total_congr ih
    rw [size]
    show capped ((ofFields fields).length * 32 + capped ((ofFields fields).map bodyBeyondWord).sum) = _
    rw [heads, bodies, capped_add_capped]

/-- A size that is a count is the size of the hollow value. -/
theorem Of.memoryBodySize {l : Layout} {t : Tree} (of : l.Of t) (isBody : t.isWord = false)
    (small : l.memoryBodySize < 2 ^ 63) : l.memoryBodySize = t.hollow.size := by
  have body : l.memoryBodySize = (ofTree t).bodyBeyondWord := by
    refine (congrArg Layout.memoryBodySize of).trans ?_
    cases t with
    | word => cases isBody
    | bytes | fixed _ _ _ | dynamic _ | record _ => rfl
  have size : t.hollow.bodySize = t.hollow.size := by
    cases t with
    | word => cases isBody
    | bytes | fixed _ _ _ | dynamic _ | record _ => rfl
  have same := bodyBeyondWord_ofTree t
  rw [← body, size, capped, capped] at same
  omega

end Layout

def NodeKind.isUnsized : NodeKind → Bool
  | .elementary e => e.kind == .bytes || e.kind == .string
  | .array _ none => true
  | _ => false

namespace Arena
variable {a : Arena} {id : NodeId} {t : Tree}

def ReachesUnsized (a : Arena) (id : NodeId) : Prop :=
  ∃ n, a.Reaches id n ∧ ∃ node ∈ a.get? n, node.kind.isUnsized = true

theorem reachesUnsized_iff {node : Node} (found : a.get? id = some node) :
    a.ReachesUnsized id ↔ node.kind.isUnsized = true ∨ ∃ c ∈ node.kind.children, a.ReachesUnsized c := by
  have children : a.children id = node.kind.children := by rw [children, found]
  constructor
  · rintro ⟨n, reached, node', found', unsized⟩
    rcases Relation.ReflTransGen.cases_head reached with rfl | ⟨c, child, below⟩
    · rw [found] at found'
      cases found'
      exact .inl unsized
    · exact .inr ⟨c, children ▸ child, n, below, node', found', unsized⟩
  · rintro (unsized | ⟨c, child, n, below, rest⟩)
    · exact ⟨id, .refl, node, found, unsized⟩
    · exact ⟨n, .head (children ▸ child) below, rest⟩

theorem isDynamic_iff_reachesUnsized (h : a.tree? id = some t) :
    t.isDynamic = true ↔ a.ReachesUnsized id := by
  induction t using Tree.induction generalizing id with
  | word =>
    cases shows_of_tree? h with
    | @word node found kind =>
      rw [reachesUnsized_iff found]
      cases node with
      | mk name kind' =>
        cases kind' with
        | elementary e =>
          have static : e.kind.isDynamic = false := by
            simpa [NodeKind.isValue, Elementary.isDynamic] using kind
          cases hk : e.kind <;>
            simp [Tree.isDynamic, NodeKind.isUnsized, NodeKind.children, hk, ElementaryKind.isDynamic] at static ⊢
        | enumeration _ _ => simp [Tree.isDynamic, NodeKind.isUnsized, NodeKind.children]
        | array _ _ | record _ | function => cases kind
  | bytes =>
    cases shows_of_tree? h with
    | @bytes node e found kind dynamic =>
      rw [reachesUnsized_iff found, kind]
      replace dynamic : e.kind.isDynamic = true := dynamic
      cases hk : e.kind <;>
        simp [Tree.isDynamic, NodeKind.isUnsized, hk, ElementaryKind.isDynamic] at dynamic ⊢
  | fixed n positive t ih =>
    cases shows_of_tree? h with
    | fixed found kind _ inner =>
      rw [reachesUnsized_iff found, kind, Tree.isDynamic, ih inner]
      simp [NodeKind.isUnsized, NodeKind.children]
  | dynamic t ih =>
    cases shows_of_tree? h with
    | dynamic found kind inner =>
      rw [reachesUnsized_iff found, kind]
      simp [Tree.isDynamic, NodeKind.isUnsized]
  | record fields ih =>
    cases shows_of_tree? h with
    | @record _ ids _ found kind inner =>
      rw [reachesUnsized_iff found, kind, Tree.isDynamic]
      simp only [NodeKind.isUnsized, NodeKind.children, Bool.false_eq_true, false_or]
      clear h found kind
      induction inner with
      | nil => simp [Tree.anyDynamic]
      | cons first _ ihf =>
        rw [Tree.anyDynamic, Bool.or_eq_true, List.map_cons, List.exists_mem_cons_iff,
          ih _ List.mem_cons_self first.2, ihf fun f hf => ih f (List.mem_cons_of_mem _ hf)]

theorem Decodable.layout (h : a.Decodable id) : ∃ t table l, a.tree? id = some t ∧
    LayoutTable.ofTree a id = .ok table ∧ table.get? id = some l ∧ l.Of t := by
  obtain ⟨t, tree, -⟩ := h.build
  obtain ⟨table, computed, spec⟩ := LayoutTable.ofTree_spec h.forest tree
  have listed : id ∈ a.subtree id := mem_subtree.2 (mem_occurrences_self _ _)
  obtain ⟨l, laid, of⟩ := (spec id listed).1 t tree
  exact ⟨t, table, l, tree, computed, laid, of⟩

end Arena

/-- The layout of a type that a resolver accepted says what the canonical encodings of its values take. It is
dynamic exactly if there is a byte string, a text or an array without a length in it. No encoding is shorter
than the body. As long as the sizes are counts, a value of a static type and a value with nothing in its byte
strings and arrays without a length have encodings of exactly that size, and the minimum is that of head and
tail together. -/
theorem layout_is_least_encoding {a : Arena} {root : NodeId} (h : a.Decodable root) :
    ∃ t table l, a.tree? root = some t ∧ LayoutTable.ofTree a root = .ok table ∧ table.get? root = some l ∧
      (l.dynamic = true ↔ a.ReachesUnsized root) ∧
      (∀ v, t.Holds v → l.calldataBodySize ≤ v.encode.length) ∧
      (∃ v, t.Holds v ∧ v.Hollow) ∧
      (t.headSize + t.tailSize < 2 ^ 64 →
        (l.dynamic = false → ∀ v, t.Holds v → v.encode.length = l.calldataBodySize) ∧
        (∀ v, t.Holds v → v.Hollow → v.encode.length = l.calldataBodySize) ∧
        l.minimumBytes = l.calldataHeadSize + l.calldataTailSize) := by
  obtain ⟨t, table, l, tree, computed, laid, of⟩ := h.layout
  have body : l.calldataBodySize = capped t.hollow.extent :=
    (congrArg Layout.calldataBodySize of).trans (Layout.calldataBodySize_ofTree t)
  have dynamic := of.dynamic
  have head := of.headSize
  have tail : l.calldataTailSize = capped t.tailSize :=
    (congrArg Layout.calldataTailSize of).trans (Layout.tailSize_ofTree t)
  have minimum : l.minimumBytes = capped (l.calldataHeadSize + l.calldataTailSize) := by
    have whole := Layout.minimumBytes_ofTree t
    rw [← show l.unplaced = .ofTree t from of] at whole
    exact whole
  refine ⟨t, table, l, tree, computed, laid, ?_, fun v hv => ?_, ⟨_, t.holds_hollow, t.hollow_hollow⟩,
    fun small => ?_⟩
  · rw [dynamic]
    exact Arena.isDynamic_iff_reachesUnsized tree
  · rw [body, Value.length_encode]
    exact Nat.le_trans (capped_le _) (Tree.extent_hollow_le hv)
  · have exact_ : l.calldataBodySize = t.hollow.extent := by
      rw [body]
      refine capped_of_lt ?_
      rw [Tree.tailSize] at small
      cases static : t.isDynamic with
      | true =>
        rw [static, if_pos rfl] at small
        omega
      | false =>
        rw [t.holds_hollow.extent_of_static static]
        omega
    refine ⟨fun static v hv => ?_, fun v hv hollow => ?_, ?_⟩
    · rw [dynamic] at static
      rw [exact_, Value.length_encode, hv.extent_of_static static, t.holds_hollow.extent_of_static static]
    · rw [exact_, Value.length_encode, hv.extent_of_hollow hollow]
    · rw [minimum, head, tail, capped_of_lt (by omega : t.headSize < 2 ^ 64),
        capped_of_lt (by omega : t.tailSize < 2 ^ 64), capped_of_lt small]

/-- An order with no note and no rows is a word, two offsets and two lengths. -/
theorem layout_is_least_encoding_order : Arena.order.Decodable 7 ∧ ∃ t table l v,
    Arena.order.tree? 7 = some t ∧ t.headSize + t.tailSize < 2 ^ 64 ∧
    LayoutTable.ofTree Arena.order 7 = .ok table ∧ table.get? 7 = some l ∧ l.dynamic = true ∧
    t.Holds v ∧ v.Hollow ∧ v.encode.length = l.calldataBodySize ∧
    l.minimumBytes = l.calldataHeadSize + l.calldataTailSize := by
  obtain ⟨t, table, l, tree, computed, laid, dynamic, -, ⟨v, hv, hollow⟩, sized⟩ :=
    layout_is_least_encoding Arena.decodable_order
  have small : t.headSize + t.tailSize < 2 ^ 64 := by
    cases tree.symm.trans Arena.tree_order
    decide
  obtain ⟨-, empty, minimum⟩ := sized small
  have unsized : Arena.order.ReachesUnsized 7 := ⟨1, .single (by decide), by decide⟩
  exact ⟨Arena.decodable_order, t, table, l, v, tree, small, computed, laid, dynamic.2 unsized, hv, hollow,
    empty v hv hollow, minimum⟩

end Calldata

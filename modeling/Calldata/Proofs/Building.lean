import Calldata.Decoder.Build
import Calldata.Proofs.TreeLayout
import Calldata.Proofs.TreePlan
import Mathlib.Algebra.GroupWithZero.Nat

/-!
The decoder of a node in a resolver's arena has the plan of the node's type tree. Counts in a layout
stop at the largest count and literals at the largest word, which is less, so nothing is lost between
the two.
-/
namespace Calldata

theorem capped_mul_capped {n : Nat} (positive : 0 < n) (h : Nat) : capped (n * capped h) = capped (n * h) := by
  unfold capped
  rcases Nat.le_total h 0xFFFFFFFFFFFFFFFF with small | large
  · rw [Nat.min_eq_left small]
  · rw [Nat.min_eq_right large, Nat.min_eq_right (Nat.le_mul_of_pos_left _ positive),
      Nat.min_eq_right (Nat.le_trans large (Nat.le_mul_of_pos_left _ positive))]

theorem capped_add_capped (m n : Nat) : capped (m + capped n) = capped (m + n) := by
  unfold capped
  omega

theorem Term.ofNat_congr {m n : Nat} (h : capped m = capped n) : Term.ofNat m = Term.ofNat n := by
  rw [← Term.ofNat_capped m, h, Term.ofNat_capped]

namespace Layout

theorem ofFields_eq (fields : List (String × Tree)) : ofFields fields = fields.map fun f => ofTree f.2 := by
  induction fields with
  | nil => rfl
  | cons f rest ih => simp [ofFields, ih]

theorem dynamic_ofTree (t : Tree) : (ofTree t).dynamic = t.isDynamic := by
  induction t using Tree.induction with
  | word | bytes | dynamic => rfl
  | fixed n positive t ih => exact ih
  | record fields ih =>
    rw [ofTree, Layout.ofRecord, Tree.isDynamic, ofFields_eq]
    change (fields.map fun f => ofTree f.2).any dynamic = _
    induction fields with
    | nil => rfl
    | cons f rest ihf =>
      rw [List.map_cons, List.any_cons, Tree.anyDynamic, ih f (by simp),
        ihf fun g hg => ih g (by simp [hg])]

theorem capped_total (fields : List (String × Tree))
    (each : ∀ f ∈ fields, (ofTree f.2).calldataHeadSize = capped f.2.headSize) :
    capped ((ofFields fields).map calldataHeadSize).sum = capped (Tree.headSizes fields) := by
  induction fields with
  | nil => rfl
  | cons f rest ih =>
    rw [ofFields, List.map_cons, List.sum_cons, Tree.headSizes, each f (by simp), Nat.add_comm,
      capped_add_capped, Nat.add_comm, ← capped_add_capped, ih fun g hg => each g (by simp [hg]),
      capped_add_capped]

theorem headSize_ofTree (t : Tree) : (ofTree t).calldataHeadSize = capped t.headSize := by
  induction t using Tree.induction with
  | word | bytes | dynamic => rfl
  | fixed n positive t ih =>
    rw [ofTree, ofFixedArray, Tree.headSize]
    simp only [dynamic_ofTree, ih, capped_mul_capped positive]
    split <;> rfl
  | record fields ih =>
    have dynamic : (ofFields fields).any Layout.dynamic = Tree.anyDynamic fields :=
      dynamic_ofTree (.record fields)
    rw [ofTree, ofRecord, Tree.headSize]
    simp only [dynamic, ← List.sum_eq_foldr, capped_total fields ih]
    split <;> rfl

end Layout

namespace Tree

mutual

def depth : Tree → Nat
  | .word => 0
  | .bytes => 1
  | .fixed _ _ t => 1 + t.depth
  | .dynamic t => 1 + t.depth
  | .record fields => 1 + (depths fields).foldl max 0

def depths : List (String × Tree) → List Nat
  | [] => []
  | (_, t) :: rest => t.depth :: depths rest

end

theorem depth_eq_zero {t : Tree} : t.depth = 0 ↔ t.isWord = true := by
  cases t <;> simp [depth, isWord]

theorem foldl_max_eq_zero (ns : List Nat) (m : Nat) : ns.foldl max m = 0 ↔ m = 0 ∧ ∀ n ∈ ns, n = 0 := by
  induction ns generalizing m with
  | nil => simp
  | cons n ns ih =>
    rw [List.foldl_cons, ih, Nat.max_eq_zero_iff, List.forall_mem_cons, and_assoc]

theorem depths_eq (fields : List (String × Tree)) : depths fields = fields.map fun f => f.2.depth := by
  induction fields with
  | nil => rfl
  | cons f rest ih => simp [depths, ih]

theorem depth_record_le {fields : List (String × Tree)} :
    (record fields).depth ≤ 1 ↔ fields.all (·.2.isWord) = true := by
  have shallow : (record fields).depth ≤ 1 ↔ (depths fields).foldl max 0 = 0 := by
    rw [depth]
    omega
  rw [shallow, foldl_max_eq_zero, depths_eq, List.all_eq_true]
  simp only [true_and, List.mem_map, forall_exists_index, and_imp, forall_apply_eq_imp_iff₂, depth_eq_zero]

theorem isFlat_iff {t : Tree} (static : t.isDynamic = false) : t.isFlat = true ↔ t.depth = 1 := by
  cases t with
  | word => simp [isFlat, depth]
  | bytes | dynamic => cases static
  | fixed n positive t =>
    rw [isFlat, depth, ← depth_eq_zero]
    omega
  | record fields =>
    rw [isFlat, ← depth_record_le, depth]
    omega

theorem static_of_isFlat {t : Tree} (h : t.isFlat = true) : t.isDynamic = false :=
  (@flat_part false t h).static

end Tree

namespace Arena
variable {a : Arena} {id : NodeId} {t : Tree} {fuel : Nat}

theorem depthWithin_eq (h : a.treeWithin fuel id = some t) : a.depthWithin fuel id = some t.depth := by
  induction fuel generalizing id t with
  | zero => cases h
  | succ fuel ih =>
    rw [depthWithin]
    cases treeWithin_succ_iff.1 h with
    | word found kind =>
      rename_i node
      cases node with
      | mk name kind' => cases kind' <;> simp_all [NodeKind.isValue, NodeKind.isReference, Tree.depth]
    | bytes found kind dynamic =>
      simp [found, kind, dynamic, NodeKind.isReference, NodeKind.children, Tree.depth]
    | fixed found kind positive inner =>
      simp [found, kind, NodeKind.isReference, NodeKind.children, ih inner, Tree.depth]
    | dynamic found kind inner =>
      simp [found, kind, NodeKind.isReference, NodeKind.children, ih inner, Tree.depth]
    | @record node ids fields found kind inner =>
      have each : (ids.map Prod.snd).mapM (a.depthWithin fuel) = some (Tree.depths fields) := by
        clear kind h
        induction inner with
        | nil => rfl
        | cons first _ rest =>
          rw [List.map_cons, List.mapM_cons, ih first.2, rest]
          rfl
      simp [found, kind, NodeKind.isReference, NodeKind.children, each, Tree.depth]

theorem treeWithin_mono {more : Nat} (le : fuel ≤ more) (h : a.treeWithin fuel id = some t) :
    a.treeWithin more id = some t := by
  induction le with
  | refl => exact h
  | step _ ih => exact treeWithin_succ ih

theorem kind_of_tree? (h : a.tree? id = some t) : ∃ node, a.get? id = some node ∧
    node.kind.isValue = t.isWord ∧ node.kind.isReference = !t.isWord := by
  cases shows_of_tree? h with
  | @word node found kind =>
    refine ⟨node, found, kind, ?_⟩
    cases hk : node.kind <;> simp_all [NodeKind.isValue, NodeKind.isReference, Tree.isWord]
  | bytes found kind dynamic =>
    exact ⟨_, found, by simp [kind, NodeKind.isValue, dynamic, Tree.isWord],
      by simp [kind, NodeKind.isReference, dynamic, Tree.isWord]⟩
  | fixed found kind _ _ | dynamic found kind _ | record found kind _ =>
    exact ⟨_, found, by rw [kind]; rfl, by rw [kind]; rfl⟩

def FunctionFree (a : Arena) (id : NodeId) : Prop :=
  ∀ n ∈ a.subtree id, ∀ node ∈ a.get? n, node.kind ≠ .function

instance (a : Arena) (id : NodeId) : Decidable (a.FunctionFree id) :=
  inferInstanceAs (Decidable (∀ n ∈ a.subtree id, ∀ node ∈ a.get? n, node.kind ≠ .function))

/-- Every node of a resolver's arena without a function has a tree. -/
theorem Forest.exists_tree (forest : a.Forest) (found : id < a.size) (free : a.FunctionFree id) :
    ∃ t, a.tree? id = some t := by
  have below (n : NodeId) (hn : n ∈ a.subtree id) (c : NodeId) (hc : c ∈ a.children n) :
      c ∈ a.subtree id := by
    rw [mem_subtree] at *
    exact children_of_mem_occurrences forest (Nat.le_of_lt found) hn hc
  have grown (fuel : Nat) (n : NodeId) (deep : n < fuel) (found : n < a.size) (hn : n ∈ a.subtree id) :
      ∃ t, a.treeWithin fuel n = some t := by
    induction fuel generalizing n with
    | zero => exact absurd deep (Nat.not_lt_zero n)
    | succ fuel ih =>
      obtain ⟨node, there⟩ : ∃ node, a.get? n = some node :=
        ⟨a.nodes[n], Array.getElem?_eq_getElem found⟩
      have child (c : NodeId) (hc : c ∈ node.kind.children) : ∃ t, a.treeWithin fuel c = some t := by
        have hc : c ∈ a.children n := by rwa [children, there]
        have less := forest.below hc
        exact ih c (Nat.lt_of_lt_of_le less (Nat.le_of_lt_succ deep)) (Nat.lt_trans less found)
          (below n hn c hc)
      have lawful := forest.lawful there
      simp only [treeWithin_succ_iff]
      cases kind : node.kind with
      | elementary e =>
        cases dynamic : e.isDynamic with
        | true => exact ⟨_, .bytes there kind dynamic⟩
        | false => exact ⟨_, .word there (by simp [kind, NodeKind.isValue, dynamic])⟩
      | enumeration _ _ => exact ⟨_, .word there (by rw [kind]; rfl)⟩
      | function => exact absurd kind (free n hn node there)
      | array element length =>
        obtain ⟨t, ht⟩ := child element (by simp [kind, NodeKind.children])
        cases length with
        | none => exact ⟨_, .dynamic there kind ht⟩
        | some length =>
          have filled : length ≠ 0 := by simpa [NodeKind.Lawful, kind] using lawful
          refine ⟨_, .fixed there kind (Nat.pos_of_ne_zero fun zero => filled ?_) ht⟩
          exact UInt64.toNat_inj.1 zero
      | record ids =>
        have each : ∀ i ∈ ids, ∃ t, a.treeWithin fuel i.2 = some t := fun i hi =>
          child i.2 (by simp only [kind, NodeKind.children]; exact List.mem_map_of_mem hi)
        have fields : ∃ fields : List (String × Tree), List.Forall₂
            (fun i f => i.1 = f.1 ∧ a.treeWithin fuel i.2 = some f.2) ids fields := by
          clear kind
          induction ids with
          | nil => exact ⟨[], .nil⟩
          | cons i ids ih =>
            obtain ⟨t, ht⟩ := each i (by simp)
            obtain ⟨fields, rest⟩ := ih fun j hj => each j (by simp [hj])
            exact ⟨(i.1, t) :: fields, .cons ⟨rfl, ht⟩ rest⟩
        obtain ⟨fields, inner⟩ := fields
        exact ⟨_, .record there kind inner⟩
  exact grown (a.size + 1) id (Nat.lt_succ_of_lt found) found
    (mem_subtree.2 (mem_occurrences_self _ _))

theorem Forest.distinct_tree (forest : a.Forest) (h : a.treeWithin fuel id = some t) : t.Distinct := by
  induction fuel generalizing id t with
  | zero => cases h
  | succ fuel ih =>
    cases treeWithin_succ_iff.1 h with
    | word | bytes => trivial
    | fixed _ _ _ inner | dynamic _ _ inner =>
      have below := ih inner
      exact below
    | @record node ids fields found kind inner =>
      have lawful := forest.lawful found
      rw [kind] at lawful
      have names : ids.map Prod.fst = fields.map Prod.fst := by
        clear kind lawful h
        induction inner with
        | nil => rfl
        | cons first _ rest => rw [List.map_cons, List.map_cons, first.1, rest]
      refine ⟨names ▸ lawful, Tree.distinctEach_iff.2 fun f hf => ?_⟩
      obtain ⟨i, _, _, inner⟩ := exists_left_of_forall₂ inner hf
      exact ih inner

end Arena

namespace Layout
variable {l : Layout} {t : Tree}

def Of (l : Layout) (t : Tree) : Prop := l.unplaced = ofTree t

theorem Of.dynamic (h : l.Of t) : l.dynamic = t.isDynamic :=
  (congrArg Layout.dynamic h).trans (dynamic_ofTree t)

theorem Of.headSize (h : l.Of t) : l.calldataHeadSize = capped t.headSize :=
  (congrArg Layout.calldataHeadSize h).trans (headSize_ofTree t)

theorem Of.memberHeads {fields : List (String × Tree)} (h : l.Of (.record fields)) :
    l.memberHeadSizeMemory = 32 * fields.length ∧
      l.memberHeadSizeCalldata = capped (Tree.headSizes fields) := by
  have memory := congrArg Layout.memberHeadSizeMemory h
  have calldata := congrArg Layout.memberHeadSizeCalldata h
  refine ⟨memory.trans ?_, calldata.trans (capped_total fields fun f _ => headSize_ofTree f.2)⟩
  rw [ofTree, ofRecord, ofFields_eq, List.length_map, Nat.mul_comm]
  rfl

theorem Of.memberHead {n : Nat} {positive : 0 < n} (h : l.Of (.fixed n positive t)) :
    l.memberHeadSizeCalldata = capped (n * t.headSize) := by
  refine (congrArg Layout.memberHeadSizeCalldata h).trans ?_
  show capped (n * (ofTree t).calldataHeadSize) = _
  rw [headSize_ofTree, capped_mul_capped positive]

end Layout

namespace Synthesizer
variable {s : Synthesizer} {ids : List NodeId} {id : NodeId} {t : Tree}

/-- The listed nodes and all nodes below them have the layouts of their trees, and fields are told
where they stand. -/
structure Laid (s : Synthesizer) (ids : List NodeId) : Prop where
  closed : ∀ id ∈ ids, ∀ c ∈ s.arena.children id, c ∈ ids
  layout : ∀ id ∈ ids, ∀ t, s.arena.tree? id = some t → ∃ l, s.layouts.get? id = some l ∧ l.Of t
  placed : ∀ id ∈ ids, LayoutTable.Placed s.arena s.layouts id

theorem layout_eq {l : Layout} (h : s.layouts.get? id = some l) : s.layout id = .ok l := by
  rw [Synthesizer.layout, h]

theorem referenceDepth_eq (h : s.arena.tree? id = some t) : s.referenceDepth id = .ok t.depth := by
  rw [referenceDepth, Arena.referenceDepth?, Arena.depthWithin_eq h]

theorem member_eq {l : Layout} (h : s.arena.tree? id = some t) (hl : s.layouts.get? id = some l) :
    s.member id = .ok (t.isWord, l) := by
  obtain ⟨node, found, isValue, isReference⟩ := Arena.kind_of_tree? h
  have decodable : (node.kind.isValue || node.kind.isReference) = true := by
    rw [isValue, isReference, Bool.or_not_self]
  rw [Synthesizer.member]
  simp only [Synthesizer.node, found, layout_eq hl, bind, Except.bind, pure, Except.pure]
  rw [if_pos decodable, isValue]

theorem isFlatElement_eq {l : Layout} (h : s.arena.tree? id = some t) (hl : l.Of t) :
    s.isFlatElement id l = .ok t.isFlat := by
  rw [isFlatElement, hl.dynamic]
  cases static : t.isDynamic with
  | true =>
    have notFlat : t.isFlat = false := by
      by_contra flat
      rw [Tree.static_of_isFlat (by simpa using flat)] at static
      cases static
    rw [notFlat]
    rfl
  | false =>
    simp only [Bool.false_eq_true, if_false, referenceDepth_eq h, bind, Except.bind, pure, Except.pure,
      Except.ok.injEq]
    rw [Bool.eq_iff_iff, Tree.isFlat_iff static]
    simp

theorem ofFlatElements_congr {scope : String} {n stride headSize : Nat}
    (same : stride = capped headSize) :
    Plan.ofFlatElements scope n stride = Plan.ofFlatElements scope n headSize := by
  have scaled (i : Nat) : Term.ofNat (capped (i * stride)) = Term.ofNat (capped (i * headSize)) := by
    rw [same]
    rcases Nat.eq_zero_or_pos i with rfl | positive
    · simp
    · rw [capped_mul_capped positive]
  simp only [Plan.ofFlatElements, scaled]

end Synthesizer

namespace Tree
open Plan

theorem measured_ofMembers {dynamic : Bool} {memoryHead calldataHead : Term} {ms : List (String × Part × Plan)}
    {slot head : Nat} (each : ∀ m ∈ ms, m.2.2.calldataSize ≠ none) :
    (ofMembers true dynamic memoryHead calldataHead (seats slot head ms)).calldataSize ≠ none := by
  have drafted (d : Draft) (hd : d.expected ≠ none) :
      ((seats slot head ms).foldl (Draft.add true) d).expected ≠ none := by
    induction ms generalizing d slot head with
    | nil => exact hd
    | cons m ms ih =>
      obtain ⟨name, part, plan⟩ := m
      obtain ⟨size, hs⟩ := Option.ne_none_iff_exists'.1 (each (name, part, plan) List.mem_cons_self)
      replace hs : plan.calldataSize = some size := hs
      obtain ⟨e, he⟩ := Option.ne_none_iff_exists'.1 hd
      refine ih (fun m hm => each m (List.mem_cons_of_mem _ hm)) _ ?_
      cases isWord : part.isWord with
      | true => simpa [Draft.add] using hd
      | false => cases part.isDynamic <;> simp [Draft.add, rebased_calldataSize, hs, he]
  rw [ofMembers]
  cases dynamic with
  | false => simp
  | true => exact drafted _ (by simp)

/-- In strict mode the size of a value in calldata is always known. -/
theorem measured_plan {strict : Bool} (t : Tree) (scope : String) (isStrict : strict = true) :
    (t.plan strict scope).calldataSize ≠ none := by
  subst isStrict
  induction t using Tree.induction generalizing scope with
  | word | bytes => simp [plan, ofValue, ofByteString, single]
  | fixed n positive t ih =>
    rw [plan]
    split
    · simp [single]
    · split
      · simp [ofFlatElements]
      · refine measured_ofMembers fun m hm => ?_
        obtain ⟨i, _, rfl⟩ := List.mem_map.1 hm
        exact ih _
  | dynamic t ih =>
    rw [plan]
    split
    · simp [single]
    · split
      · simp [ofFlatDynamicArray]
      · obtain ⟨start, checks, cursors, _, _, eq⟩ :=
          @ofDynamicArray_eq true t.isDynamic t.headSize scope _ fun _ => ih (scope ++ "[]")
        rw [eq, Option.getD_some, overElements]
        cases t.isDynamic <;> simp
  | record fields ih =>
    rw [plan]
    split
    · simp [single]
    · refine measured_ofMembers fun m hm => ?_
      rw [fieldPlans_eq] at hm
      obtain ⟨f, hf, rfl⟩ := List.mem_map.1 hm
      exact ih f hf _

end Tree

namespace Synthesizer
variable {s : Synthesizer} {ids : List NodeId} {id : NodeId} {t : Tree}

section Members
variable {strict : Bool} {inner : NodeId → String → Except SynthesisError Plan} {scope : String}

theorem fields_eq {fields : List (String × NodeId)} {trees : List (String × Tree)}
    (found : List.Forall₂ (fun i f => i.1 = f.1 ∧ s.arena.tree? i.2 = some f.2 ∧
      (∃ l, s.layouts.get? i.2 = some l ∧ l.Of f.2) ∧
        ∀ scope, inner i.2 scope = .ok (f.2.plan strict scope)) fields trees)
    {offset head slot : Nat} (stand : s.layouts.Stand offset slot (fields.map Prod.snd))
    (same : capped offset = capped head) :
    (fields.mapM fun (field, child) => do
      let (isValue, layout) ← s.member child
      let name := scope ++ "." ++ field
      let body ← if isValue then pure none else do pure (some (layout.dynamic, ← inner child name))
      return (⟨name, .ofNat layout.memoryHeadOffset, .ofNat layout.calldataHeadOffset, body⟩ :
        Plan.Member)) =
      .ok (Plan.seats slot head (Tree.fieldPlans strict scope trees)) := by
  induction found generalizing offset head slot with
  | nil => rfl
  | @cons i f fields trees first _ ih =>
    obtain ⟨name, child⟩ := i
    obtain ⟨_, t⟩ := f
    obtain ⟨rfl, ht, ⟨l, hl, of⟩, decoded⟩ := first
    obtain ⟨here, later⟩ := stand
    obtain ⟨rfl, rfl⟩ := here l hl
    have headOf : s.layouts.headOf child = capped t.headSize := by
      rw [LayoutTable.headOf, hl, Option.map_some, Option.getD_some, of.headSize]
    have next : capped (l.calldataHeadOffset + s.layouts.headOf child) = capped (head + t.headSize) := by
      rw [headOf, capped_add_capped, Nat.add_comm, ← capped_add_capped, same, capped_add_capped,
        Nat.add_comm]
    have rest := ih later next
    have plan := decoded (scope ++ "." ++ name)
    rw [List.mapM_cons, rest, Tree.fieldPlans, Plan.seats]
    simp only [member_eq ht hl, plan, bind, Except.bind, pure, Except.pure, Term.ofNat_congr same,
      Tree.part, of.dynamic]
    by_cases isWord : t.isWord = true <;> simp only [isWord, if_true] <;> rfl

theorem elements_eq (n : Nat) (isWord : t.isWord = false)
    (decoded : ∀ scope, inner id scope = .ok (t.plan strict scope)) {headSize : Nat}
    (same : headSize = capped t.headSize) :
    ((List.range n).mapM fun i => do
      let name := s!"{scope}[{i}]"
      return (⟨name, .words i, .ofNat (capped (i * headSize)), some (t.isDynamic, ← inner id name)⟩ :
        Plan.Member)) =
      (.ok (Plan.seats 0 0 ((List.range n).map fun i =>
        (s!"{scope}[{i}]", t.part strict, t.plan strict s!"{scope}[{i}]"))) :
          Except SynthesisError (List Plan.Member)) := by
  have seats (start k : Nat) : Plan.seats (32 * start) (start * t.headSize)
      ((List.range' start k).map fun i =>
        (s!"{scope}[{i}]", t.part strict, t.plan strict s!"{scope}[{i}]")) =
      (List.range' start k).map fun i =>
        (⟨s!"{scope}[{i}]", .words i, .ofNat (capped (i * headSize)),
          some (t.isDynamic, t.plan strict s!"{scope}[{i}]")⟩ : Plan.Member) := by
    induction k generalizing start with
    | zero => rfl
    | succ k ih =>
      have heads : Term.ofNat (capped (start * headSize)) = Term.ofNat (start * t.headSize) := by
        rw [Term.ofNat_capped, same]
        rcases Nat.eq_zero_or_pos start with rfl | positive
        · simp
        · exact Term.ofNat_congr (capped_mul_capped positive _)
      have later := ih (start + 1)
      rw [Nat.add_mul, Nat.one_mul, Nat.mul_add] at later
      rw [List.range'_succ, List.map_cons, List.map_cons, Plan.seats, heads, Term.words_eq,
        Nat.mul_comm start 32]
      have plain : (t.part strict).isWord = false := isWord
      rw [plain]
      exact congrArg _ later
  have listed := seats 0 n
  rw [Nat.mul_zero, Nat.zero_mul] at listed
  rw [List.range_eq_range', listed]
  generalize List.range' 0 n = is
  induction is with
  | nil => rfl
  | cons i is ih =>
    rw [List.mapM_cons, ih]
    simp only [decoded, bind, Except.bind, pure, Except.pure, List.map_cons]

end Members

structure Planned (s : Synthesizer) (inner : NodeId → String → Except SynthesisError Plan) (id : NodeId)
    (t : Tree) (l : Layout) : Prop where
  tree : s.arena.tree? id = some t
  found : s.layouts.get? id = some l
  layout : l.Of t
  plan : ∀ scope, inner id scope = .ok (t.plan s.options.strict scope)

section Nodes
variable {inner : NodeId → String → Except SynthesisError Plan} {l le : Layout} {element : NodeId}

theorem fixedArrayPlan_eq {n : Nat} {positive : 0 < n} (of : l.Of (.fixed n positive t))
    (planned : s.Planned inner element t le) (scope : String) :
    s.fixedArrayPlan inner l element n scope = .ok ((Tree.fixed n positive t).plan s.options.strict scope) := by
  obtain ⟨tree, found, layout, plan⟩ := planned
  simp only [fixedArrayPlan, member_eq tree found, isFlatElement_eq tree layout, bind, Except.bind, pure,
    Except.pure]
  rw [Tree.plan]
  cases isWord : t.isWord with
  | true => rfl
  | false =>
    simp only [Bool.false_eq_true, if_false]
    cases flat : t.isFlat with
    | true =>
      simp only [if_true, Except.ok.injEq]
      exact ofFlatElements_congr layout.headSize
    | false =>
      have members := @elements_eq element t s.options.strict inner scope n isWord plan le.calldataHeadSize
        layout.headSize
      simp only [bind, Except.bind, pure, Except.pure] at members
      simp only [Bool.false_eq_true, if_false, layout.dynamic, members, Except.ok.injEq]
      rw [of.dynamic, of.memberHead, Term.words_eq, Term.ofNat_capped, Nat.mul_comm n 32]
      rfl

theorem dynamicArrayPlan_eq (planned : s.Planned inner element t le) (scope : String) :
    s.dynamicArrayPlan inner element scope = .ok ((Tree.dynamic t).plan s.options.strict scope) := by
  obtain ⟨tree, found, layout, plan⟩ := planned
  simp only [dynamicArrayPlan, member_eq tree found, isFlatElement_eq tree layout, bind, Except.bind, pure,
    Except.pure]
  rw [Tree.plan]
  cases isWord : t.isWord with
  | true => rfl
  | false =>
    simp only [Bool.false_eq_true, if_false]
    have stride : Term.ofNat le.calldataHeadSize = Term.ofNat t.headSize := by
      rw [layout.headSize, Term.ofNat_capped]
    cases flat : t.isFlat with
    | true => simp only [if_true, Plan.ofFlatDynamicArray, stride]
    | false =>
      obtain ⟨_, _, _, _, _, eq⟩ := @Plan.ofDynamicArray_eq s.options.strict t.isDynamic t.headSize scope
        _ (Tree.measured_plan t (scope ++ "[]"))
      have same : Plan.ofDynamicArray s.options.strict t.isDynamic le.calldataHeadSize scope
          (t.plan s.options.strict (scope ++ "[]")) = Plan.ofDynamicArray s.options.strict t.isDynamic
            t.headSize scope (t.plan s.options.strict (scope ++ "[]")) := by
        simp only [Plan.ofDynamicArray, stride]
      simp only [Bool.false_eq_true, if_false, plan, layout.dynamic, same, eq, Option.getD_some]

theorem recordPlan_eq {fields : List (String × NodeId)} {trees : List (String × Tree)}
    (whole : s.arena.tree? id = some (.record trees)) (of : l.Of (.record trees))
    (planned : List.Forall₂ (fun i f => i.1 = f.1 ∧ ∃ l, s.Planned inner i.2 f.2 l) fields trees)
    (stand : s.layouts.Stand 0 0 (fields.map Prod.snd)) (scope : String) :
    s.recordPlan inner id l fields scope = .ok ((Tree.record trees).plan s.options.strict scope) := by
  have members := @fields_eq s s.options.strict inner scope fields trees (planned.imp fun i f h => by
    obtain ⟨same, l, tree, found, layout, plan⟩ := h
    exact ⟨same, tree, ⟨l, found, layout⟩, plan⟩) 0 0 0 stand rfl
  simp only [bind, Except.bind, pure, Except.pure] at members
  simp only [recordPlan, of.memberHeads, referenceDepth_eq whole, of.dynamic, bind, Except.bind, pure,
    Except.pure, Term.ofNat_capped]
  rw [Tree.plan]
  cases dynamic : (Tree.record trees).isDynamic with
  | true =>
    have mixed : trees.all (·.2.isWord) = false := by
      by_contra flat
      rw [Tree.static_of_isFlat (t := .record trees) (by simpa [Tree.isFlat] using flat)] at dynamic
      cases dynamic
    have any : Tree.anyDynamic trees = true := dynamic
    simp only [if_true, Bool.false_eq_true, if_false, members, mixed, any]
  | false =>
    have any : Tree.anyDynamic trees = false := dynamic
    cases flat : trees.all (·.2.isWord) with
    | true => simp [Tree.depth_record_le.2 flat]
    | false =>
      have deep : ¬ (Tree.record trees).depth ≤ 1 := fun shallow => by
        rw [Tree.depth_record_le.1 shallow] at flat
        cases flat
      simp only [decide_eq_false deep, Bool.false_eq_true, if_false, members, any]

end Nodes

/-- The plan of a node is the plan of its tree. -/
theorem planWithin_eq (laid : s.Laid ids) {fuel : Nat} (enough : fuel ≤ s.arena.size + 1)
    (listed : id ∈ ids) (h : s.arena.treeWithin fuel id = some t) (scope : String) :
    s.planWithin fuel id scope = .ok (t.plan s.options.strict scope) := by
  induction fuel generalizing id t scope with
  | zero => cases h
  | succ fuel ih =>
    have whole : s.arena.tree? id = some t := Arena.treeWithin_mono enough h
    obtain ⟨l, hl, of⟩ := laid.layout id listed t whole
    have child {c : NodeId} {t : Tree} (hc : c ∈ s.arena.children id)
        (ht : s.arena.treeWithin fuel c = some t) : ∃ l, s.Planned (s.planWithin fuel) c t l := by
      have inside := laid.closed id listed c hc
      have tree := Arena.treeWithin_mono (Nat.le_of_succ_le enough) ht
      obtain ⟨l, found, layout⟩ := laid.layout c inside t tree
      exact ⟨l, tree, found, layout, ih (Nat.le_of_succ_le enough) inside ht⟩
    rw [planWithin, layout_eq hl]
    simp only [Synthesizer.node, bind, Except.bind]
    cases Arena.treeWithin_succ_iff.1 h with
    | word found kind =>
      rename_i node
      rw [found]
      cases node with
      | mk name kind' => cases kind' <;> simp_all [NodeKind.isValue, Tree.plan, pure, Except.pure]
    | bytes found kind dynamic => simp [found, kind, dynamic, Tree.plan, pure, Except.pure]
    | fixed found kind positive inner =>
      obtain ⟨_, planned⟩ := child (by simp [Arena.children, found, kind, NodeKind.children]) inner
      simp only [found, kind]
      exact fixedArrayPlan_eq of planned scope
    | dynamic found kind inner =>
      obtain ⟨_, planned⟩ := child (by simp [Arena.children, found, kind, NodeKind.children]) inner
      simp only [found, kind]
      exact dynamicArrayPlan_eq planned scope
    | @record node fields trees found kind inner =>
      have below : ∀ i ∈ fields, i.2 ∈ s.arena.children id := fun i hi => by
        simp only [Arena.children, found, kind, NodeKind.children, List.mem_map]
        exact ⟨i, hi, rfl⟩
      simp only [found, kind]
      exact recordPlan_eq whole of (((List.forall₂_and_left fields trees).2 ⟨below, inner⟩).imp
        fun i f h => ⟨h.2.1, child h.1 h.2.2⟩) (laid.placed id listed node fields found kind) scope

theorem laid_ofTree {a : Arena} (forest : a.Forest) {root : NodeId} {layouts : LayoutTable}
    (h : a.tree? root = some t) (laid : LayoutTable.ofTree a root = .ok layouts) (options : Options) :
    Laid ⟨a, layouts, options⟩ (a.subtree root) := by
  obtain ⟨table, eq, spec⟩ := LayoutTable.ofTree_spec forest h
  rw [laid] at eq
  cases eq
  have deep : root ≤ a.size := Nat.le_of_lt (Arena.lt_size_of_tree? h)
  refine ⟨fun id hid c hc => ?_, fun id hid => (spec id hid).1, fun id hid => (spec id hid).2⟩
  rw [Arena.mem_subtree] at *
  exact Arena.children_of_mem_occurrences forest deep hid hc

end Synthesizer

namespace Tree

def planWith (options : Options) (t : Tree) (scope : String) : Plan :=
  if options.merge then (t.plan options.strict scope).merged else t.plan options.strict scope

end Tree

namespace Synthesizer
variable {a : Arena} {root : NodeId} {layouts : LayoutTable} {t : Tree}

theorem synthesize_eq (forest : a.Forest) (h : a.tree? root = some t)
    (laid : LayoutTable.ofTree a root = .ok layouts) (options : Options) (scope : String) :
    synthesize ⟨a, layouts, options⟩ root scope = .ok (t.plan options.strict scope) := by
  have listed : root ∈ a.subtree root := Arena.mem_subtree.2 (Arena.mem_occurrences_self _ _)
  rw [synthesize, planWithin_eq (laid_ofTree forest h laid options) (Nat.le_refl _) listed h]

theorem build_eq (forest : a.Forest) (h : a.tree? root = some t)
    (laid : LayoutTable.ofTree a root = .ok layouts) (options : Options) (scope : String) :
    build ⟨a, layouts, options⟩ root scope = .ok (t.planWith options scope) := by
  rw [build, synthesize_eq forest h laid]
  rfl

end Synthesizer

/-- The decoder of a node has the plan of the node's tree. -/
theorem Decoder.ofRoot_eq {a : Arena} (forest : a.Forest) {root : NodeId} {t : Tree}
    (h : a.tree? root = some t) (options : Options) (name : String) :
    ofRoot a options name root = .ok ⟨name, options.strict, t.planWith options name⟩ := by
  obtain ⟨layouts, laid, _⟩ := LayoutTable.ofTree_spec forest h
  simp only [ofRoot, laid, Synthesizer.build_eq forest h laid]

def NodeKind.fields : NodeKind → List (String × NodeId)
  | .record fields => fields
  | _ => []

namespace Arena
variable {a : Arena} {root : NodeId}

/-- Every field of a record at a node or below it has a plain name. -/
def PlainFields (a : Arena) (root : NodeId) : Prop :=
  ∀ n ∈ a.subtree root, ∀ node ∈ a.get? n, ∀ f ∈ node.kind.fields, Tree.PlainField f.1

-- Only the characters of the name are looked at; the search for an instance may try all there are.
instance (name : String) : Decidable (Tree.PlainField name) :=
  List.decidableBAll _ name.toList

instance (a : Arena) (root : NodeId) : Decidable (a.PlainFields root) :=
  inferInstanceAs (Decidable (∀ n ∈ a.subtree root, ∀ node ∈ a.get? n, ∀ f ∈ node.kind.fields,
    Tree.PlainField f.1))

/-- A type that a resolver accepted, with no function in it. -/
structure Decodable (a : Arena) (root : NodeId) : Prop where
  resolved : ∃ r : Resolver, r.Reachable ∧ r.arena = a
  found : root < a.size
  functionFree : a.FunctionFree root

theorem Decodable.forest (h : a.Decodable root) : a.Forest := by
  obtain ⟨r, reachable, rfl⟩ := h.resolved
  exact reachable.forest

theorem Decodable.build (h : a.Decodable root) : ∃ t, a.tree? root = some t ∧ t.Distinct ∧
    ∀ (options : Options) (scope : String),
      Decoder.ofRoot a options scope root = .ok ⟨scope, options.strict, t.planWith options scope⟩ := by
  obtain ⟨t, ht⟩ := h.forest.exists_tree h.found h.functionFree
  exact ⟨t, ht, h.forest.distinct_tree ht, Decoder.ofRoot_eq h.forest ht⟩

theorem Decodable.plain_tree (h : a.Decodable root) (plain : a.PlainFields root) {t : Tree}
    (tree : a.tree? root = some t) : ∀ f ∈ t.fieldNames, Tree.PlainField f := by
  have below (n : NodeId) (hn : n ∈ a.subtree root) (c : NodeId) (hc : c ∈ a.children n) :
      c ∈ a.subtree root := by
    rw [mem_subtree] at *
    exact children_of_mem_occurrences h.forest (Nat.le_of_lt h.found) hn hc
  have each (fuel : Nat) (id : NodeId) (hid : id ∈ a.subtree root) (t : Tree)
      (ht : a.treeWithin fuel id = some t) : ∀ f ∈ t.fieldNames, Tree.PlainField f := by
    induction fuel generalizing id t with
    | zero => cases ht
    | succ fuel ih =>
      cases treeWithin_succ_iff.1 ht with
      | word | bytes => simp [Tree.fieldNames]
      | fixed there kind _ inner | dynamic there kind inner =>
        have plain := ih _ (below id hid _ (by simp [children, there, kind, NodeKind.children])) _ inner
        exact plain
      | @record node ids fields there kind inner =>
        intro n hn
        obtain ⟨f, hf, hn⟩ := Tree.mem_namesOf.1 hn
        obtain ⟨i, hi, same, inner⟩ := exists_left_of_forall₂ inner hf
        rcases hn with rfl | hn
        · exact same ▸ plain id hid node there i (by rwa [kind])
        · refine ih i.2 (below id hid _ ?_) _ inner n hn
          simp only [children, there, kind, NodeKind.children, List.mem_map]
          exact ⟨i, hi, rfl⟩
  exact each _ root (mem_subtree.2 (mem_occurrences_self _ _)) t tree

/-- The type of an order, for examples: a number, a note, and rows of a key with cells. -/
def order : Arena :=
  (Resolver.empty.resolveParams "order" [⟨"id", .uint 256⟩, ⟨"note", .elementary ⟨.bytes, none⟩⟩,
    ⟨"rows", .array (.record [⟨"key", .uint 64⟩, ⟨"cells", .array (.uint 8) none⟩]) none⟩]).2.arena

theorem decodable_order : order.Decodable 7 where
  resolved := ⟨_, .resolveParams .empty _ _, rfl⟩
  found := by decide
  functionFree := by decide

theorem plainFields_order : order.PlainFields 7 := by decide

theorem tree_order : order.tree? 7 = some (.record [("id", .word), ("note", .bytes),
    ("rows", .dynamic (.record [("key", .word), ("cells", .dynamic .word)]))]) := by rfl

/-- The type of a trade, for examples: legs of an asset, a price and amounts. -/
def trade : Arena :=
  (Resolver.empty.resolveParams "trade" [⟨"legs", .array (.record [⟨"asset", .uint 256⟩, ⟨"price", .uint 256⟩,
    ⟨"amounts", .array (.uint 256) none⟩]) none⟩]).2.arena

theorem decodable_trade : trade.Decodable 6 where
  resolved := ⟨_, .resolveParams .empty _ _, rfl⟩
  found := by decide
  functionFree := by decide

theorem plainFields_trade : trade.PlainFields 6 := by decide

theorem tree_trade : trade.tree? 6 = some (.record [("legs",
    .dynamic (.record [("asset", .word), ("price", .word), ("amounts", .dynamic .word)]))]) := by rfl

/-- The type of a parcel, for examples: its weight is a word after larger members. -/
def parcel : Arena :=
  (Resolver.empty.resolveParams "parcel" [⟨"label", .array (.uint 256) (some 1)⟩,
    ⟨"texts", .record [⟨"from", .elementary ⟨.bytes, none⟩⟩, ⟨"to", .elementary ⟨.bytes, none⟩⟩,
      ⟨"tag", .uint 256⟩]⟩,
    ⟨"weight", .uint 256⟩, ⟨"sides", .array (.uint 256) (some 2)⟩]).2.arena

theorem decodable_parcel : parcel.Decodable 9 where
  resolved := ⟨_, .resolveParams .empty _ _, rfl⟩
  found := by decide
  functionFree := by decide

theorem plainFields_parcel : parcel.PlainFields 9 := by decide

theorem tree_parcel : parcel.tree? 9 = some (.record [("label", .fixed 1 (by decide) .word),
    ("texts", .record [("from", .bytes), ("to", .bytes), ("tag", .word)]), ("weight", .word),
    ("sides", .fixed 2 (by decide) .word)]) := by rfl

end Arena

end Calldata

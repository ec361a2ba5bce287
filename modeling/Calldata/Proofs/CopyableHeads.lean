import Calldata.Proofs.Tiling
import Mathlib.Algebra.GroupWithZero.Nat

/-!
Heads that can be copied. The head of a record is copied as it stands when it has as many bytes in calldata
as in memory. A value and the offset of a dynamic member take one word in both. A static member with a body
is the exception: calldata has it in place, and memory has a pointer. So the flag compares what such members
take in calldata with one word for each, and a sum can come out even although they are there.
-/
namespace Calldata

theorem total_map_filter {α : Type} (f : α → Nat) (p : α → Bool) (k : Nat) (xs : List α)
    (others : ∀ x ∈ xs, p x = false → f x = k) :
    (xs.map f).sum + k * (xs.filter p).length = k * xs.length + ((xs.filter p).map f).sum := by
  induction xs with
  | nil => rfl
  | cons x xs ih =>
    have later := ih fun y hy => others y (List.mem_cons_of_mem _ hy)
    have here := others x List.mem_cons_self
    cases hp : p x with
    | true =>
      rw [List.filter_cons_of_pos hp]
      simp only [List.map_cons, List.sum_cons, List.length_cons, Nat.mul_succ] at later ⊢
      omega
    | false =>
      rw [List.filter_cons_of_neg (by simp [hp])]
      simp only [List.map_cons, List.sum_cons, List.length_cons, Nat.mul_succ, here hp] at later ⊢
      omega

theorem mul_length_lt_total {α : Type} {f : α → Nat} {k : Nat} {xs : List α} (some_ : xs ≠ [])
    (each : ∀ x ∈ xs, k < f x) : k * xs.length < (xs.map f).sum := by
  induction xs with
  | nil => exact absurd rfl some_
  | cons x xs ih =>
    have here := each x List.mem_cons_self
    simp only [List.map_cons, List.sum_cons, List.length_cons, Nat.mul_succ]
    by_cases last : xs = []
    · simp [last, here]
    · have later := ih last fun y hy => each y (List.mem_cons_of_mem _ hy)
      omega

theorem capped_eq_words_iff {n count : Nat} (few : 32 * count < 2 ^ 64) : capped n = 32 * count ↔ n = 32 * count := by
  unfold capped
  omega

namespace Tree
variable {t : Tree}

theorem headSize_of_isWord (h : t.isWord = true) : t.headSize = 32 := by
  cases t with
  | word => rfl
  | bytes | fixed | dynamic | record => cases h

theorem headSize_of_dynamic (h : t.isDynamic = true) : t.headSize = 32 := by
  cases t with
  | word => cases h
  | bytes | dynamic => rfl
  | fixed _ _ t | record fields => exact if_pos h

end Tree

namespace LayoutTable
variable {a : Arena} {table : LayoutTable} {ids : List NodeId} {id c : NodeId} {node : Node} {l : Layout}
variable {fields : List (String × NodeId)}

def InWord (a : Arena) (table : LayoutTable) (c : NodeId) : Prop :=
  a.isValue? c = some true ∨ ∃ l ∈ table.get? c, l.dynamic = true

/-- The member stands in place in calldata, and behind a pointer in memory. -/
def Inlined (a : Arena) (table : LayoutTable) (c : NodeId) : Prop :=
  a.isReference? c = some true ∧ ∃ l ∈ table.get? c, l.dynamic = false

instance (a : Arena) (table : LayoutTable) (c : NodeId) : Decidable (InWord a table c) :=
  inferInstanceAs (Decidable (a.isValue? c = some true ∨ ∃ l ∈ table.get? c, l.dynamic = true))

instance (a : Arena) (table : LayoutTable) (c : NodeId) : Decidable (Inlined a table c) :=
  inferInstanceAs (Decidable (a.isReference? c = some true ∧ ∃ l ∈ table.get? c, l.dynamic = false))

theorem Has.inWord_iff (h : Has a table c) : InWord a table c ↔ ¬ Inlined a table c := by
  obtain ⟨t, tree, l, laid, -⟩ := h
  obtain ⟨node, found, isValue, isReference⟩ := Arena.kind_of_tree? tree
  simp only [InWord, Inlined, Arena.isValue?, Arena.isReference?, found, laid, Option.map_some, isValue,
    isReference, Option.some.injEq, Option.mem_def, exists_eq_left']
  cases t.isWord <;> simp

theorem Has.headOf_eq (h : Has a table c) (inWord : InWord a table c) : table.headOf c = 32 := by
  obtain ⟨t, tree, l, laid, of⟩ := h
  have head : table.headOf c = capped t.headSize := by
    rw [headOf, laid, Option.map_some, Option.getD_some, of.headSize]
  obtain value | ⟨l', laid', dynamic⟩ := inWord
  · obtain ⟨node, found, isValue, -⟩ := Arena.kind_of_tree? tree
    have isWord : t.isWord = true := by simpa [Arena.isValue?, found, isValue] using value
    rw [head, Tree.headSize_of_isWord isWord]
    rfl
  · rw [laid] at laid'
    cases laid'
    rw [head, Tree.headSize_of_dynamic (of.dynamic ▸ dynamic)]
    rfl

def inlined (a : Arena) (table : LayoutTable) (fields : List (String × NodeId)) : List NodeId :=
  (fields.map Prod.snd).filter fun c => Inlined a table c

theorem Shows.headOf {members : List Layout} (h : table.Shows ids members) :
    ids.map table.headOf = members.map Layout.calldataHeadSize := by
  induction h with
  | nil => rfl
  | cons first _ ih => rw [List.map_cons, List.map_cons, ih, LayoutTable.headOf, first]; rfl

theorem Tiled.has_member (tiled : Tiled a ids table) {members : List Layout}
    (side : table.Shows (fields.map Prod.snd) members) {f : String × NodeId} (hf : f ∈ fields) :
    Has a table f.2 := by
  obtain ⟨i, hi, eq⟩ := List.getElem_of_mem (List.mem_map_of_mem (f := Prod.snd) hf)
  have laid := side.get hi (side.length_eq ▸ hi)
  rw [List.get_eq_getElem, eq] at laid
  exact tiled.has (tiled.listed laid)

/-- The flag of a record compares the sizes that its members have in the two heads. -/
theorem Tiled.canCopyHead_iff (tiled : Tiled a ids table) (found : a.get? id = some node)
    (kind : node.kind = .record fields) (laid : table.get? id = some l) (few : 32 * fields.length < 2 ^ 64) :
    l.canCopyHead = true ↔ ((inlined a table fields).map table.headOf).sum = 32 * (inlined a table fields).length := by
  obtain ⟨members, side, of⟩ := tiled.members found kind laid
  have flag : l.canCopyHead = (capped (members.map Layout.calldataHeadSize).sum == members.length * 32) :=
    congrArg Layout.canCopyHead of
  have heads := side.headOf
  rw [Layout.map_calldataHeadSize_row] at heads
  have length : members.length = (fields.map Prod.snd).length := by
    rw [side.length_eq, Layout.length_row]
  have split := total_map_filter table.headOf (fun c => decide (Inlined a table c)) 32 (fields.map Prod.snd) ?_
  · rw [flag, beq_iff_eq, ← heads, Nat.mul_comm, length, capped_eq_words_iff (by simpa using few)]
    unfold inlined
    omega
  · intro c hc plain
    obtain ⟨f, hf, rfl⟩ := List.mem_map.1 hc
    have has := tiled.has_member side hf
    exact has.headOf_eq (has.inWord_iff.2 (of_decide_eq_false plain))

theorem Tiled.inlined_eq_nil_iff (tiled : Tiled a ids table) (found : a.get? id = some node)
    (kind : node.kind = .record fields) (laid : table.get? id = some l) :
    inlined a table fields = [] ↔ ∀ f ∈ fields, InWord a table f.2 := by
  obtain ⟨members, side, -⟩ := tiled.members found kind laid
  rw [inlined, List.filter_eq_nil_iff, List.forall_mem_map]
  refine forall₂_congr fun f hf => ?_
  rw [decide_eq_true_iff, (tiled.has_member side hf).inWord_iff]

theorem exists_of_evaluated (a : Arena) (id : NodeId) (p : LayoutTable → Layout → Bool)
    (h : ((ofTree a id).toOption.any fun table => (table.get? id).any (p table)) = true) :
    ∃ table l, ofTree a id = .ok table ∧ table.get? id = some l ∧ p table l = true := by
  cases computed : ofTree a id with
  | error e => simp [computed, Except.toOption] at h
  | ok table =>
    rw [computed, show (Except.ok table).toOption = some table from rfl, Option.any_some, Option.any_eq_true] at h
    obtain ⟨l, laid, holds⟩ := h
    exact ⟨table, l, rfl, laid, holds⟩

end LayoutTable

/-- In every table of an arena that a resolver filled, a record's head is marked as copied exactly if those
members that stand in place in calldata and behind a pointer in memory take as many words in calldata as
there are of them. So it is marked where each member is a value or dynamic; and it is marked only there, if
every member that stands in place has more than one word. -/
theorem copyable_heads_of_history (calls : List Call) (table : LayoutTable) (id : NodeId) (node : Node)
    (fields : List (String × NodeId)) (l : Layout)
    (computed : LayoutTable.ofArena (Resolver.history calls).arena = .ok table ∨
      ∃ root, LayoutTable.ofTree (Resolver.history calls).arena root = .ok table)
    (found : (Resolver.history calls).arena.get? id = some node) (kind : node.kind = .record fields)
    (laid : table.get? id = some l) (few : 32 * fields.length < 2 ^ 64) :
    let a := (Resolver.history calls).arena
    let inlined := LayoutTable.inlined a table fields
    (l.canCopyHead = true ↔ (inlined.map table.headOf).sum = 32 * inlined.length) ∧
    ((∀ f ∈ fields, LayoutTable.InWord a table f.2) → l.canCopyHead = true) ∧
    ((∀ c ∈ inlined, 32 < table.headOf c) →
      (l.canCopyHead = true ↔ ∀ f ∈ fields, LayoutTable.InWord a table f.2)) := by
  intro a inlined
  have forest : a.Forest := (Resolver.reachable_foldl .empty calls).forest
  obtain ⟨ids, tiled⟩ : ∃ ids, LayoutTable.Tiled a ids table := by
    rcases computed with ok | ⟨root, ok⟩
    · exact ⟨_, LayoutTable.tiled_of_ofIds forest forest.downset_range ok⟩
    · have down := forest.downset_subtree (LayoutTable.lt_size_of_ofTree ok)
      exact ⟨_, LayoutTable.tiled_of_ofIds forest down ok⟩
  have flag := tiled.canCopyHead_iff found kind laid few
  have none_iff : inlined = [] ↔ ∀ f ∈ fields, LayoutTable.InWord a table f.2 :=
    tiled.inlined_eq_nil_iff found kind laid
  have marked (none : inlined = []) : l.canCopyHead = true := by
    rw [flag, show LayoutTable.inlined a table fields = [] from none]
    rfl
  refine ⟨flag, fun each => marked (none_iff.2 each), fun wide => ⟨fun copied => ?_, fun each => marked (none_iff.2 each)⟩⟩
  rw [← none_iff]
  by_contra some_
  exact Nat.ne_of_gt (mul_length_lt_total some_ wide) (flag.1 copied)

/-- A record without fields beside two words: together they take the two words that their pointers take. -/
def Call.even : List Call :=
  [.resolveParams "f" [⟨"a", .record []⟩, ⟨"b", .array (.uint 256) (some 2)⟩, ⟨"c", .bytes⟩]]

theorem copyable_heads_of_even_history :
    (let a := (Resolver.history Call.even).arena
    let fields := [("a", 0), ("b", 2), ("c", 3)]
    ∃ table l, LayoutTable.ofTree a 4 = .ok table ∧ table.get? 4 = some l ∧
      LayoutTable.inlined a table fields = [0, 2] ∧ l.canCopyHead = true) ∧
    (let a := (Resolver.history Call.blended).arena
    let fields := [("a", 1), ("b", 2), ("c", 4), ("d", 5)]
    ∃ table l, LayoutTable.ofTree a 6 = .ok table ∧ table.get? 6 = some l ∧
      (∀ c ∈ LayoutTable.inlined a table fields, 32 < table.headOf c) ∧ ¬ l.canCopyHead = true) := by
  constructor
  · intro a fields
    obtain ⟨table, l, computed, laid, evaluated⟩ := LayoutTable.exists_of_evaluated a 4
      (fun table _ => decide (LayoutTable.inlined a table fields = [0, 2] ∧ table.headOf 0 = 0 ∧
        table.headOf 2 = 64)) (by decide)
    obtain ⟨two, first, second⟩ := of_decide_eq_true evaluated
    have sizes := (copyable_heads_of_history Call.even table 4 ⟨"f", .record fields⟩ fields l
      (.inr ⟨4, computed⟩) rfl rfl laid (by decide)).1
    refine ⟨table, l, computed, laid, two, sizes.2 ?_⟩
    rw [show LayoutTable.inlined _ table fields = [0, 2] from two]
    simp [first, second]
  · intro a fields
    obtain ⟨table, l, computed, laid, evaluated⟩ := LayoutTable.exists_of_evaluated a 6
      (fun table _ => decide ((∀ c ∈ LayoutTable.inlined a table fields, 32 < table.headOf c) ∧
        ¬ LayoutTable.InWord a table 1)) (by decide)
    obtain ⟨wide, outside⟩ := of_decide_eq_true evaluated
    have exact_ := (copyable_heads_of_history Call.blended table 6 ⟨"f", .record fields⟩ fields l
      (.inr ⟨6, computed⟩) rfl rfl laid (by decide)).2.2 wide
    exact ⟨table, l, computed, laid, wide, fun copied => outside (exact_.1 copied ("a", 1) (by simp [fields]))⟩

def Call.lone : List Call := [.resolveParams "f" [⟨"a", .array (.uint 256) (some 1)⟩]]

/-- A head is marked as copied although its only member is a pointer in memory. -/
theorem head_copied_over_pointer :
    let a := (Resolver.history Call.lone).arena
    (a.get? 2).map Node.kind = some (.record [("a", 1)]) ∧
    ∃ table l, LayoutTable.ofTree a 2 = .ok table ∧ table.get? 2 = some l ∧ l.canCopyHead = true ∧
      ¬ LayoutTable.InWord a table 1 := by
  intro a
  obtain ⟨table, l, computed, laid, evaluated⟩ := LayoutTable.exists_of_evaluated a 2
    (fun table l => decide (l.canCopyHead = true ∧ ¬ LayoutTable.InWord a table 1)) (by decide)
  exact ⟨by decide, table, l, computed, laid, of_decide_eq_true evaluated⟩

end Calldata

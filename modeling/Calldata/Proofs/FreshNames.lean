import Mathlib.Data.List.Nodup
import Calldata.Proofs.Building

/-!
Names of loops. A loop takes the names of its index and its cursors from the scope it is made for, and
no two parts of a type have the same scope as long as no field name holds a mark that plans put between
a scope and what continues it. Then all names that the loops of a plan set are different. With such a
mark in a field name two loops can share a cursor.
-/
namespace Calldata

structure Fresh (scope : String) (names : List String) : Prop where
  nodup : names.Nodup
  inside : ∀ n ∈ names, Inside scope n

theorem Fresh.nil (scope : String) : Fresh scope [] := ⟨List.nodup_nil, by simp⟩

namespace Plan
variable {strict dynamic : Bool} {scope : String} {p : Plan}

theorem fresh_members {α : Type} {xs : List α} {members : List Member} {part : α → String}
    (each : List.Forall₂ (fun x m => Fresh (part x) m.bound) xs members)
    (apart : xs.Pairwise fun x y => ∀ n, Inside (part x) n → ¬ Inside (part y) n)
    (within : ∀ x ∈ xs, ∀ n, Inside (part x) n → Inside scope n) :
    Fresh scope (members.flatMap Member.bound) := by
  induction each with
  | nil => exact .nil scope
  | @cons x m xs members first rest ih =>
    obtain ⟨here, later⟩ := List.pairwise_cons.1 apart
    have tail := ih later fun x hx => within x (List.mem_cons_of_mem _ hx)
    rw [List.flatMap_cons]
    constructor
    · refine List.nodup_append'.2 ⟨first.nodup, tail.nodup, fun n hn there => ?_⟩
      obtain ⟨m', hm', hn'⟩ := List.mem_flatMap.1 there
      obtain ⟨x', hx', bound⟩ := exists_left_of_forall₂ rest hm'
      exact here x' hx' n (first.inside n hn) (bound.inside n hn')
    · intro n hn
      rcases List.mem_append.1 hn with hn | hn
      · exact within x List.mem_cons_self n (first.inside n hn)
      · exact tail.inside n hn

theorem bound_ofDynamicArray {headSize : Nat} {element : Plan}
    (h : ofDynamicArray strict dynamic headSize scope element = some p) :
    p.bound = ([scope ++ ".index", scope ++ ".cursor"] ++
      if dynamic && strict then [scope ++ ".offset"] else []) ++ element.bound := by
  cases dynamic with
  | false =>
    cases h
    exact bound_overElements
  | true =>
    cases strict with
    | false =>
      cases h
      exact bound_overElements
    | true =>
      obtain ⟨cursors, tracked, rfl⟩ := Option.map_eq_some_iff.1 h
      obtain ⟨size, _, rfl⟩ := Option.map_eq_some_iff.1 tracked
      exact bound_overElements

theorem fresh_ofDynamicArray {headSize : Nat} {element : Plan} (fresh : Fresh (scope ++ "[]") element.bound)
    (h : ofDynamicArray strict dynamic headSize scope element = some p) : Fresh scope p.bound := by
  have own : ([scope ++ ".index", scope ++ ".cursor"] ++
      if dynamic && strict then [scope ++ ".offset"] else []).Sublist (own scope) := by
    cases dynamic && strict <;> simp [Plan.own]
  rw [bound_ofDynamicArray h]
  constructor
  · refine List.nodup_append'.2 ⟨own.nodup (by simp [Plan.own]), fresh.nodup, fun n hn there => ?_⟩
    exact Tree.not_inside_own (own.subset hn) (fresh.inside n there)
  · intro n hn
    rcases List.mem_append.1 hn with hn | hn
    · exact (Tree.beneath_own (own.subset hn)).inside
    · exact (fresh.inside n hn).extend (by simp; rfl) (.inr rfl)

end Plan

namespace Synthesizer
variable {s : Synthesizer} {ids : List NodeId} {fuel : Nat} {id : NodeId} {scope : String} {p : Plan}
variable {inner : NodeId → String → Except SynthesisError Plan}

theorem refuse_ne_ok {α : Type} {gap : SynthesisGap} {a : α} : s.refuse id gap ≠ .ok a := by
  intro h
  obtain ⟨node, _, h⟩ := exists_of_bind_ok h
  cases h

theorem recordPlan_cases {l : Layout} {fields : List (String × NodeId)}
    (h : s.recordPlan inner id l fields scope = .ok p) :
    (∃ memorySize calldataSize, p = .single scope memorySize calldataSize) ∨
      ∃ members memoryHead calldataHead,
        p = .ofMembers s.options.strict l.dynamic memoryHead calldataHead members ∧
          List.Forall₂ (fun f (m : Plan.Member) => m.body = none ∨
            ∃ dynamic q, m.body = some (dynamic, q) ∧ inner f.2 (scope ++ "." ++ f.1) = .ok q) fields members := by
  unfold recordPlan at h
  extract_lets memoryHead calldataHead rest at h
  obtain ⟨flat, h⟩ : ∃ flat, rest flat = .ok p := by
    split at h
    · exact ⟨false, h⟩
    · obtain ⟨depth, _, h⟩ := exists_of_bind_ok h
      exact ⟨_, h⟩
  cases flat with
  | true =>
    cases h
    exact .inl ⟨_, _, rfl⟩
  | false =>
    obtain ⟨members, listed, h⟩ := exists_of_bind_ok h
    cases h
    refine .inr ⟨members, _, _, rfl, (mapM_ok_iff.1 listed).imp fun f m hm => ?_⟩
    obtain ⟨⟨isValue, layout⟩, _, hm⟩ := exists_of_bind_ok hm
    cases isValue with
    | true =>
      cases hm
      exact .inl rfl
    | false =>
      obtain ⟨q, hq, hm⟩ := exists_of_bind_ok hm
      cases hm
      exact .inr ⟨_, q, rfl, hq⟩

theorem fixedArrayPlan_cases {l : Layout} {length : Nat} (h : s.fixedArrayPlan inner l id length scope = .ok p) :
    p.loops = [] ∨ ∃ members memoryHead calldataHead,
      p = .ofMembers s.options.strict l.dynamic memoryHead calldataHead members ∧
        List.Forall₂ (fun i (m : Plan.Member) => ∃ dynamic q, m.body = some (dynamic, q) ∧
          inner id s!"{scope}[{i}]" = .ok q) (List.range length) members := by
  obtain ⟨⟨isValue, layout⟩, _, h⟩ := exists_of_bind_ok h
  cases isValue with
  | true =>
    cases h
    exact .inl rfl
  | false =>
    obtain ⟨flat, _, h⟩ := exists_of_bind_ok h
    cases flat with
    | true =>
      cases h
      exact .inl rfl
    | false =>
      obtain ⟨members, listed, h⟩ := exists_of_bind_ok h
      cases h
      refine .inr ⟨members, _, _, rfl, (mapM_ok_iff.1 listed).imp fun i m hm => ?_⟩
      obtain ⟨q, hq, hm⟩ := exists_of_bind_ok hm
      cases hm
      exact ⟨_, q, rfl, hq⟩

theorem dynamicArrayPlan_cases (h : s.dynamicArrayPlan inner id scope = .ok p) :
    p.loops = [] ∨ (∃ stride, p = .ofFlatDynamicArray scope stride) ∨
      ∃ dynamic headSize element, inner id (scope ++ "[]") = .ok element ∧
        Plan.ofDynamicArray s.options.strict dynamic headSize scope element = some p := by
  obtain ⟨⟨isValue, layout⟩, _, h⟩ := exists_of_bind_ok h
  cases isValue with
  | true =>
    cases h
    exact .inl rfl
  | false =>
    obtain ⟨flat, _, h⟩ := exists_of_bind_ok h
    cases flat with
    | true =>
      cases h
      exact .inr (.inl ⟨_, rfl⟩)
    | false =>
      obtain ⟨element, found, h⟩ := exists_of_bind_ok h
      refine .inr (.inr ⟨layout.dynamic, layout.calldataHeadSize, element, found, ?_⟩)
      split at h
      · next q hq =>
        cases h
        exact hq
      · exact absurd h refuse_ne_ok

theorem fresh_record {l : Layout} {fields : List (String × NodeId)} (distinct : (fields.map Prod.fst).Nodup)
    (unmarked : ∀ f ∈ fields, Tree.Unmarked f.1)
    (each : ∀ f ∈ fields, ∀ scope p, inner f.2 scope = .ok p → Fresh scope p.bound)
    (h : s.recordPlan inner id l fields scope = .ok p) : Fresh scope p.bound := by
  rcases recordPlan_cases h with ⟨_, _, rfl⟩ | ⟨members, memoryHead, calldataHead, rfl, listed⟩
  · exact .nil scope
  · rw [Plan.bound_ofMembers]
    refine @Plan.fresh_members scope _ fields members (fun f => scope ++ "." ++ f.1) ?_ ?_ ?_
    · refine ((List.forall₂_and_left fields members).2 ⟨each, listed⟩).imp fun f m ⟨decoded, body⟩ => ?_
      rcases body with word | ⟨dynamic, q, body, hq⟩
      · rw [Plan.Member.bound, word]
        exact .nil _
      · rw [Plan.Member.bound, body]
        exact decoded _ q hq
    · have distinct : fields.Pairwise fun f g => f.1 ≠ g.1 := List.pairwise_map.1 distinct
      refine distinct.imp_of_mem fun {f g} hf hg ne n hn hn' => ne ?_
      exact Tree.field_of_inside (unmarked f hf) (unmarked g hg) hn hn'
    · intro f hf n hn
      rw [String.append_assoc] at hn
      exact hn.extend (by simp; rfl) (.inl rfl)

theorem fresh_fixedArray {l : Layout} {length : Nat}
    (decoded : ∀ scope p, inner id scope = .ok p → Fresh scope p.bound)
    (h : s.fixedArrayPlan inner l id length scope = .ok p) : Fresh scope p.bound := by
  rcases fixedArrayPlan_cases h with flat | ⟨members, memoryHead, calldataHead, rfl, listed⟩
  · rw [Plan.bound_of_no_loops flat]
    exact .nil scope
  · rw [Plan.bound_ofMembers]
    refine @Plan.fresh_members scope _ (List.range length) members (fun i => s!"{scope}[{i}]") ?_ ?_ ?_
    · refine listed.imp fun i m ⟨dynamic, q, body, hq⟩ => ?_
      rw [Plan.Member.bound, body]
      exact decoded _ q hq
    · exact List.nodup_range.imp fun {i j} ne n hn hn' => ne (Tree.index_of_inside hn hn')
    · intro i _ n hn
      rw [Tree.elementName_eq] at hn
      exact hn.extend (by simp; rfl) (.inr rfl)

theorem fresh_dynamicArray (decoded : ∀ scope p, inner id scope = .ok p → Fresh scope p.bound)
    (h : s.dynamicArrayPlan inner id scope = .ok p) : Fresh scope p.bound := by
  rcases dynamicArrayPlan_cases h with flat | ⟨stride, rfl⟩ | ⟨dynamic, headSize, element, found, looped⟩
  · rw [Plan.bound_of_no_loops flat]
    exact .nil scope
  · have index : (Plan.ofFlatDynamicArray scope stride).bound = [scope ++ ".index"] := rfl
    rw [index]
    refine ⟨List.nodup_singleton _, fun n hn => ?_⟩
    rw [List.mem_singleton.1 hn]
    exact .of_append (by simp; rfl) (.inl rfl)
  · exact Plan.fresh_ofDynamicArray (decoded _ element found) looped

/-- The plan of a node binds different names, if the names of fields below it are different within their
record and hold no marks. -/
theorem fresh_planWithin (closed : ∀ id ∈ ids, ∀ c ∈ s.arena.children id, c ∈ ids)
    (named : ∀ id ∈ ids, ∀ node, s.arena.get? id = some node →
      (node.kind.fields.map Prod.fst).Nodup ∧ ∀ f ∈ node.kind.fields, Tree.Unmarked f.1)
    (listed : id ∈ ids) (h : s.planWithin fuel id scope = .ok p) : Fresh scope p.bound := by
  induction fuel generalizing id scope p with
  | zero => cases h
  | succ fuel ih =>
    obtain ⟨l, _, h⟩ := exists_of_bind_ok h
    obtain ⟨node, found, h⟩ := exists_of_bind_ok h
    have there : s.arena.get? id = some node := by
      unfold Synthesizer.node at found
      split at found
      · next node' there =>
        cases found
        exact there
      · cases found
    have below (c : NodeId) (hc : c ∈ node.kind.children) (scope : String) (p : Plan)
        (h : s.planWithin fuel c scope = .ok p) : Fresh scope p.bound :=
      ih (closed id listed c (by rwa [Arena.children, there])) h
    obtain ⟨distinct, unmarked⟩ := named id listed node there
    cases kind : node.kind with
    | elementary e =>
      rw [kind] at h
      cases h
      split <;> exact .nil scope
    | enumeration variants bits =>
      rw [kind] at h
      cases h
      exact .nil scope
    | function =>
      rw [kind] at h
      exact absurd h refuse_ne_ok
    | record fields =>
      rw [kind] at h distinct unmarked below
      exact fresh_record distinct unmarked (fun f hf => below f.2 (List.mem_map_of_mem hf)) h
    | array element length =>
      rw [kind] at h below
      have decoded := below element (by simp [NodeKind.children])
      cases length with
      | some length => exact fresh_fixedArray decoded h
      | none => exact fresh_dynamicArray decoded h

end Synthesizer

def Arena.UnmarkedFields (a : Arena) (root : NodeId) : Prop :=
  ∀ n ∈ a.subtree root, ∀ node ∈ a.get? n, ∀ f ∈ node.kind.fields, Tree.Unmarked f.1

instance (a : Arena) (root : NodeId) : Decidable (a.UnmarkedFields root) :=
  inferInstanceAs (Decidable (∀ n ∈ a.subtree root, ∀ node ∈ a.get? n, ∀ f ∈ node.kind.fields,
    Tree.Unmarked f.1))

/-- Where no field name holds a mark, all names of indices and cursors in a plan are different, at every
level and in both modes. -/
theorem loop_names_distinct {r : Resolver} (reachable : r.Reachable) {root : NodeId}
    (found : root < r.arena.size) (unmarked : r.arena.UnmarkedFields root) (layouts : LayoutTable)
    (options : Options) (scope : String) {p : Plan}
    (h : Synthesizer.synthesize ⟨r.arena, layouts, options⟩ root scope = .ok p) : p.bound.Nodup := by
  have forest := reachable.forest
  refine (@Synthesizer.fresh_planWithin _ (r.arena.subtree root) _ _ _ _ ?_ ?_ ?_ h).nodup
  · intro id hid c hc
    rw [Arena.mem_subtree] at *
    exact Arena.children_of_mem_occurrences forest (Nat.le_of_lt found) hid hc
  · intro id hid node there
    refine ⟨?_, unmarked id hid node there⟩
    have lawful := forest.lawful there
    cases kind : node.kind with
    | record fields =>
      rw [kind] at lawful
      exact lawful
    | _ => exact List.nodup_nil
  · exact Arena.mem_subtree.2 (Arena.mem_occurrences_self _ _)

theorem Synthesizer.exists_of_any {a : Arena} {root : NodeId} {options : Options} {scope : String}
    {holds : Plan → Bool} (h : ((LayoutTable.ofTree a root).toOption.bind fun layouts =>
      (synthesize ⟨a, layouts, options⟩ root scope).toOption).any holds = true) :
    ∃ layouts p, LayoutTable.ofTree a root = .ok layouts ∧
      synthesize ⟨a, layouts, options⟩ root scope = .ok p ∧ holds p = true := by
  cases hl : LayoutTable.ofTree a root with
  | error e =>
    rw [hl] at h
    cases h
  | ok layouts =>
    cases hp : synthesize ⟨a, layouts, options⟩ root scope with
    | error e => simp [hl, hp, Except.toOption] at h
    | ok p =>
      refine ⟨layouts, p, rfl, hp, ?_⟩
      simpa [hl, hp, Except.toOption] using h

/-- A list of lists of texts, and two records with a list of texts. -/
def Resolver.lists : Resolver :=
  (Resolver.empty.resolveParams "f" [⟨"a", .array (.array .string none) none⟩,
    ⟨"b", .array (.record [⟨"c", .array .string none⟩]) (some 2)⟩]).2

theorem loop_names_distinct_lists : ∃ layouts p, LayoutTable.ofTree Resolver.lists.arena 7 = .ok layouts ∧
    Synthesizer.synthesize ⟨Resolver.lists.arena, layouts, { strict := true }⟩ 7 "f" = .ok p ∧
      p.bound.length = 12 ∧ p.bound.Nodup := by
  have ran : ((LayoutTable.ofTree Resolver.lists.arena 7).toOption.bind fun layouts =>
      (Synthesizer.synthesize ⟨Resolver.lists.arena, layouts, { strict := true }⟩ 7 "f").toOption).any
        fun p => p.bound.length = 12 := by
    decide +kernel
  obtain ⟨layouts, p, laid, synthesized, length⟩ := Synthesizer.exists_of_any ran
  exact ⟨layouts, p, laid, synthesized, of_decide_eq_true length,
    loop_names_distinct (.resolveParams .empty _ _) (by decide) (by decide) layouts _ "f" synthesized⟩

/-- A record `a` with a list `b`, and a list `a.b`. -/
def Resolver.namesakes : Resolver :=
  (Resolver.empty.resolveParams "p" [⟨"a", .record [⟨"b", .array .bytes none⟩]⟩,
    ⟨"a.b", .array .bytes none⟩]).2

/-- A mark in a field name makes two loops share their names. -/
theorem loop_names_shared_by_namesakes : Resolver.namesakes.Reachable ∧
    ∃ layouts p, LayoutTable.ofTree Resolver.namesakes.arena 5 = .ok layouts ∧
      Synthesizer.synthesize ⟨Resolver.namesakes.arena, layouts, {}⟩ 5 "p" = .ok p ∧ ¬ p.bound.Nodup := by
  have ran : ((LayoutTable.ofTree Resolver.namesakes.arena 5).toOption.bind fun layouts =>
      (Synthesizer.synthesize ⟨Resolver.namesakes.arena, layouts, {}⟩ 5 "p").toOption).any
        fun p => !decide p.bound.Nodup := by
    decide +kernel
  obtain ⟨layouts, p, laid, synthesized, repeated⟩ := Synthesizer.exists_of_any ran
  exact ⟨.resolveParams .empty _ _, layouts, p, laid, synthesized, by simpa using repeated⟩

end Calldata

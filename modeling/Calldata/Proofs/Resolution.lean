import Calldata.Proofs.Expansion
import Calldata.Proofs.Growth

/-!
A resolver over its whole life. Whatever was asked of it and whatever failed, a name with a root has a
definition, and the tree at the root reads back as its expansion; names were resolved after the names they
refer to. Resolving everything succeeds exactly if every reference has a definition, no definition leads
back to itself and no body is refused.
-/
namespace Calldata
open Relation

namespace Definition
variable {definitions : List Definition} {m n : String}

def Link (definitions : List Definition) (m n : String) : Prop :=
  Refers definitions m n ∧ n ∈ definitions.map name

theorem transGen_link_self_iff : TransGen (Link definitions) n n ↔ TransGen (Refers definitions) n n := by
  refine transGen_inside_self_iff ?_
  rintro m n ⟨d, hd, rfl, _⟩
  exact List.mem_map_of_mem hd

end Definition

theorem Ty.Expands.defined {definitions : List Definition} {n : String} {u : Ty}
    (h : Ty.Expands definitions (.reference n) u) : n ∈ definitions.map Definition.name := by
  cases h with
  | reference defined _ => exact List.mem_map_of_mem defined

theorem Arena.lt_size_of_type? {a : Arena} {id : NodeId} {t : Ty} (h : a.type? id = some t) : id < a.size := by
  obtain ⟨node, found, _⟩ := Option.bind_eq_some_iff.1 h
  exact (Array.getElem?_eq_some_iff.1 found).1

namespace Resolver
variable {r r' : Resolver} {d : Definition} {a : Arena} {name n : String} {id : NodeId} {e : ResolveError}

structure Settled (r : Resolver) : Prop where
  distinct : (r.definitions.map Definition.name).Nodup
  forest : r.arena.Forest
  listed : r.roots.map Prod.fst = r.order
  once : r.order.Nodup
  reads : ∀ root ∈ r.roots, ∃ t, r.arena.type? root.2 = some t ∧ Ty.Expands r.definitions (.reference root.1) t
  follows : Follows (Definition.Refers r.definitions) r.order

theorem mem_roots_of_root? (h : r.root? name = some id) : (name, id) ∈ r.roots := by
  obtain ⟨before, after, eq, _⟩ := List.lookup_eq_some_iff.1 h
  rw [eq]
  exact List.mem_append_right _ List.mem_cons_self

theorem Settled.mem_order_iff (settled : r.Settled) : name ∈ r.order ↔ ∃ id, r.root? name = some id := by
  rw [← settled.listed]
  exact mem_keys_iff

theorem Settled.expands (settled : r.Settled) (h : name ∈ r.order) :
    ∃ id t, r.arena.type? id = some t ∧ Ty.Expands r.definitions (.reference name) t := by
  rw [← settled.listed] at h
  obtain ⟨root, listed, rfl⟩ := List.mem_map.1 h
  obtain ⟨t, read, expands⟩ := settled.reads root listed
  exact ⟨root.2, t, read, expands⟩

section Steps

theorem settled_empty : empty.Settled where
  distinct := List.nodup_nil
  forest := Reachable.empty.forest
  listed := rfl
  once := List.nodup_nil
  reads := by simp [empty]
  follows := .nil _

theorem Settled.add (settled : r.Settled) (h : r.add d = .ok r') : r'.Settled := by
  rw [Resolver.add] at h
  split at h
  · cases h
  · next new =>
    cases h
    have new : d.name ∉ r.definitions.map Definition.name := by simpa using new
    have more : r.definitions ⊆ r.definitions ++ [d] := List.subset_append_left _ _
    refine ⟨?_, settled.forest, settled.listed, settled.once, fun root listed => ?_, ?_⟩
    · rw [List.map_append]
      exact settled.distinct.append (List.nodup_singleton _) (List.disjoint_singleton.2 new)
    · obtain ⟨t, read, expands⟩ := settled.reads root listed
      exact ⟨t, read, expands.mono more⟩
    · rintro before name after split n ⟨e, he, rfl, hn⟩
      refine settled.follows before e.name after split n ⟨e, ?_, rfl, hn⟩
      -- a name that is resolved was defined before
      refine (List.mem_append.1 he).resolve_right fun last => new ?_
      have resolved : e.name ∈ r.order := split ▸ List.mem_append_right _ List.mem_cons_self
      obtain ⟨_, _, _, expands⟩ := settled.expands resolved
      exact List.mem_singleton.1 last ▸ expands.defined

theorem Settled.grow (settled : r.Settled) (forest : a.Forest) (longer : r.arena.Extends a) :
    Settled { r with arena := a } where
  distinct := settled.distinct
  forest := forest
  listed := settled.listed
  once := settled.once
  reads root listed := by
    obtain ⟨t, read, expands⟩ := settled.reads root listed
    exact ⟨t, (settled.forest.type?_later longer (Arena.lt_size_of_type? read)).trans read, expands⟩
  follows := settled.follows

theorem Settled.resolve (settled : r.Settled) (new : name ∉ r.order) {t : Ty}
    (read : r.arena.type? id = some t) (expands : Ty.Expands r.definitions (.reference name) t)
    (ready : ∀ n, Definition.Refers r.definitions name n → n ∈ r.order) :
    Settled { r with roots := r.roots ++ [(name, id)], order := r.order ++ [name] } where
  distinct := settled.distinct
  forest := settled.forest
  listed := by rw [List.map_append, settled.listed, List.map_singleton]
  once := settled.once.append (List.nodup_singleton name) (List.disjoint_singleton.2 new)
  reads := List.forall_mem_append.2 ⟨settled.reads, by simpa using ⟨t, read, expands⟩⟩
  follows := settled.follows.snoc ready

theorem settled_intern (settled : r.Settled) (visiting : List String) (name : String) (body : Ty) :
    (r.intern visiting name body).2.Settled :=
  settled.grow (forest_intern settled.forest visiting name body) (extends_intern settled.forest visiting name body)

theorem reads_intern (forest : r.arena.Forest) {visiting : List String} {body : Ty}
    (h : r.intern visiting name body = (.ok id, r')) :
    ∃ t, r'.arena.type? id = some t ∧ Ty.Expands r.definitions body t := by
  cases h' : (Interning.internWith (Interning.expand r.definitions (r.definitions.length + 1) visiting) name
    (some name) body).run.run r.arena with
  | mk result arena =>
    rw [intern, h'] at h
    cases h
    exact Interning.reads_internWith (Interning.keeps_expand _ _ _) (Interning.reads_expand _ _ _) name
      (some name) body r.arena id arena forest h'

theorem cause_of_intern (defined : d ∈ r.definitions)
    (h : r.intern [d.name] d.name d.body = (.error e, r')) : Interning.Cause r.definitions d.name e := by
  cases h' : (Interning.internWith (Interning.expand r.definitions (r.definitions.length + 1) [d.name]) d.name
    (some d.name) d.body).run.run r.arena with
  | mk result arena =>
    rw [intern, h'] at h
    cases h
    have trail : Trail (r.definitions.map Definition.name) (Definition.Refers r.definitions) [d.name] :=
      Trail.nil.snoc (by simp) (by simp) (List.mem_map_of_mem defined)
    have deep : r.definitions.length < r.definitions.length + 1 + [d.name].length := by
      rw [List.length_singleton]
      omega
    refine Interning.cause_of_body defined (fun n refers b later failed => ?_) h'
    exact Interning.cause_of_expand trail (by simpa using refers) deep failed

theorem intern_eq {visiting : List String} {body : Ty} {result : Except ResolveError NodeId}
    (h : r.intern visiting name body = (result, r')) : r' = { r with arena := r'.arena } := by
  cases h
  rfl

end Steps

theorem Settled.order_prefix (settled : r.Settled) (settled' : r'.Settled) (longer : r.roots <+: r'.roots) :
    r.order <+: r'.order := by
  rw [← settled.listed, ← settled'.listed]
  exact longer.map Prod.fst

/-- What resolving definitions does to a resolver: it keeps all it had, and where it ends well the names
are resolved. -/
structure Resolves (r : Resolver) (names : List String) (result : Except ResolveError Unit) (r' : Resolver) :
    Prop where
  settled : r'.Settled
  definitions : r'.definitions = r.definitions
  roots : r.roots <+: r'.roots
  done : result = .ok () → ∀ n ∈ names, n ∈ r'.order
  cause : ∀ e, result = .error e → ∃ n ∈ names, Interning.Cause r.definitions n e

def Ready (r : Resolver) (names : List String) : Prop :=
  ∀ before name after, names = before ++ name :: after → ∀ n, Definition.Refers r.definitions name n →
    n ∈ r.definitions.map Definition.name → n ∈ r.order ∨ n ∈ before

theorem Ready.tail {rest : List String} (ready : r.Ready (name :: rest))
    (same : r'.definitions = r.definitions) (longer : r.order <+: r'.order) (first : name ∈ r'.order) :
    r'.Ready rest := by
  intro before x after split n refers defined
  rw [same] at refers defined
  rcases ready (name :: before) x after (by rw [split]; rfl) n refers defined with old | earlier
  · exact .inl (longer.subset old)
  · rcases List.mem_cons.1 earlier with rfl | earlier
    · exact .inl first
    · exact .inr earlier

theorem Settled.resolved_references {rest : List String} (settled : r.Settled) (defined : d ∈ r.definitions)
    (ready : r.Ready (d.name :: rest)) {t : Ty} (expands : Ty.Expands r.definitions d.body t) :
    ∀ n, Definition.Refers r.definitions d.name n → n ∈ r.order := by
  intro n refers
  obtain ⟨other, there, same, hn⟩ := refers
  obtain rfl := List.inj_on_of_nodup_map settled.distinct there defined same
  obtain ⟨_, inner⟩ := expands.exists_reference hn
  rcases ready [] other.name rest rfl n ⟨other, there, rfl, hn⟩ inner.defined with old | earlier
  · exact old
  · cases earlier

theorem resolves_resolveList {names : List String} (settled : r.Settled)
    (defined : ∀ n ∈ names, n ∈ r.definitions.map Definition.name) (ready : r.Ready names) :
    r.Resolves names (resolveList names r).1 (resolveList names r).2 := by
  induction names generalizing r with
  | nil => exact ⟨settled, rfl, List.prefix_rfl, by simp, fun e h => by cases h⟩
  | cons name rest ih =>
    have onwards {r' : Resolver} (settled' : r'.Settled) (same : r'.definitions = r.definitions)
        (longer : r.roots <+: r'.roots) (first : name ∈ r'.order) :
        r.Resolves (name :: rest) (resolveList rest r').1 (resolveList rest r').2 := by
      have others := ih settled' (fun n hn => same ▸ defined n (by simp [hn]))
        (ready.tail same (settled.order_prefix settled' longer) first)
      refine ⟨others.settled, others.definitions.trans same, longer.trans others.roots, ?_, ?_⟩
      · intro ok n hn
        rcases List.mem_cons.1 hn with rfl | hn
        · exact (settled'.order_prefix others.settled others.roots).subset first
        · exact others.done ok n hn
      · intro e failed
        obtain ⟨n, hn, cause⟩ := others.cause e failed
        exact ⟨n, List.mem_cons_of_mem _ hn, same ▸ cause⟩
    rw [resolveList]
    split
    · next d fresh found =>
      obtain ⟨hd, rfl⟩ := (Definition.find?_eq_some_iff settled.distinct).1 found
      have grown := settled_intern settled [d.name] d.name d.body
      split
      · next e r' interned =>
        rw [interned] at grown
        rw [intern_eq interned] at grown ⊢
        refine ⟨grown, rfl, List.prefix_rfl, by simp, ?_⟩
        rintro _ ⟨⟩
        exact ⟨d.name, by simp, cause_of_intern hd interned⟩
      · next id r' interned =>
        rw [interned] at grown
        obtain ⟨t, read, expands⟩ := reads_intern settled.forest interned
        have references := settled.resolved_references hd ready expands
        have new : d.name ∉ r.order := by
          rw [settled.mem_order_iff, fresh]
          simp
        obtain ⟨arena, rfl⟩ : ∃ arena, r' = { r with arena } := ⟨_, intern_eq interned⟩
        exact onwards (grown.resolve new read (.reference hd expands) references) rfl
          (List.prefix_append _ _) (by simp)
    · next known =>
      obtain ⟨d, hd, rfl⟩ := List.mem_map.1 (defined name (by simp))
      have found := (Definition.find?_eq_some_iff settled.distinct).2 ⟨hd, rfl⟩
      refine onwards settled rfl List.prefix_rfl (settled.mem_order_iff.2 ?_)
      exact Option.ne_none_iff_exists'.1 fun fresh => known d fresh found

/-- In dependency order everything can be resolved, since each name comes after those it needs. -/
theorem Settled.resolves (settled : r.Settled) {order : List String}
    (h : (Graph.ofDefinitions r.definitions).dependencyOrder = .ok order) :
    r.Resolves (r.definitions.map Definition.name) (resolveList order r).1 (resolveList order r).2 := by
  obtain ⟨sorted, all⟩ := Graph.sorted_dependencyOrder h
  have names (n : String) : n ∈ (Graph.ofDefinitions r.definitions).names ↔
      n ∈ r.definitions.map Definition.name := by
    rw [Graph.mem_names_ofDefinitions, List.mem_map]
  have ready : r.Ready order := by
    intro before name after split n refers defined
    exact .inr (sorted.follows before name after split n
      ⟨(Graph.edge_ofDefinitions settled.distinct).2 refers, (names n).2 defined⟩)
  have defined (n : String) (hn : n ∈ order) := (names n).1 (sorted.defined n hn)
  obtain ⟨settled', same, roots, done, cause⟩ := resolves_resolveList settled defined ready
  refine ⟨settled', same, roots, fun ok n hn => done ok n (all n ((names n).2 hn)), fun e failed => ?_⟩
  obtain ⟨n, hn, cause⟩ := cause e failed
  exact ⟨n, defined n hn, cause⟩

theorem Reachable.settled (h : r.Reachable) : r.Settled := by
  induction h with
  | empty => exact settled_empty
  | add _ added ih => exact ih.add added
  | resolveAll _ ih =>
    rw [Resolver.resolveAll]
    split
    · exact ih
    · next order eq => exact (ih.resolves eq).settled
  | resolveParams _ name params ih => exact settled_intern ih [] name (.record params)

theorem settled_history (calls : List Call) : (history calls).Settled :=
  (reachable_foldl .empty calls).settled

def Refuses (r : Resolver) : Call → Prop
  | .add d => ∃ e, r.add d = .error e
  | .resolveAll => ∃ e, r.resolveAll.1 = .error e
  | .resolveParams name params => ∃ e, (r.resolveParams name params).1 = .error e

/-- A call that is refused may resolve some names, but takes nothing back. -/
theorem Settled.refused (settled : r.Settled) {call : Call} (refused : r.Refuses call) :
    (r.after call).definitions = r.definitions ∧ r.roots <+: (r.after call).roots := by
  cases call with
  | add d =>
    obtain ⟨e, failed⟩ := refused
    rw [after, failed]
    exact ⟨rfl, List.prefix_rfl⟩
  | resolveAll =>
    rw [after, resolveAll]
    split
    · exact ⟨rfl, List.prefix_rfl⟩
    · next order eq => exact ⟨(settled.resolves eq).definitions, (settled.resolves eq).roots⟩
  | resolveParams name params => exact ⟨rfl, List.prefix_rfl⟩

theorem root?_of_prefix (longer : r.roots <+: r'.roots) (h : r.root? name = some id) :
    r'.root? name = some id := by
  obtain ⟨more, eq⟩ := longer
  rw [root?, ← eq, List.lookup_append]
  rw [root?] at h
  rw [h]
  rfl

section Everything

theorem Settled.edge_eq (settled : r.Settled) :
    (Graph.ofDefinitions r.definitions).Edge = Definition.Refers r.definitions := by
  ext m n
  exact Graph.edge_ofDefinitions settled.distinct

theorem Settled.dependencyOrder_iff (settled : r.Settled) :
    (∃ order, (Graph.ofDefinitions r.definitions).dependencyOrder = .ok order) ↔
      ∀ n, ¬ TransGen (Definition.Link r.definitions) n n := by
  simp only [Graph.dependencyOrder_eq_ok_iff, settled.edge_eq, Definition.transGen_link_self_iff]

theorem cycle_of_cause {definitions : List Definition} {cycle : List String}
    (cause : Interning.Cause definitions name (.circular cycle)) :
    ∃ n, TransGen (Definition.Link definitions) n n := by
  cases cause with
  | circular _ again chain => exact ⟨_, Definition.transGen_link_self_iff.2 (transGen_of_again again chain)⟩
  | refused _ _ blames _ => exact absurd rfl (blames.ne_circular cycle)

theorem flaw_of_cause {definitions : List Definition} (defined : name ∈ definitions.map Definition.name)
    (cause : Interning.Cause definitions name e) : (∃ n, TransGen (Definition.Link definitions) n n) ∨
      (∃ d ∈ definitions, ∃ n ∈ d.body.references, n ∉ definitions.map Definition.name) ∨
      ∃ d ∈ definitions, ¬ d.body.Valid := by
  rcases cause.flaw with ⟨n, way, undefined⟩ | ⟨n, _, round⟩ | ⟨d, hd, _, invalid⟩
  · rcases ReflTransGen.cases_tail way with rfl | ⟨_, _, d, hd, _, mentioned⟩
    · exact absurd defined undefined
    · exact .inr (.inl ⟨d, hd, n, mentioned, undefined⟩)
  · exact .inl ⟨n, Definition.transGen_link_self_iff.2 round⟩
  · exact .inr (.inr ⟨d, hd, invalid⟩)

theorem Settled.sound (settled : r.Settled) (hd : d ∈ r.definitions) (resolved : d.name ∈ r.order) :
    (∀ n ∈ d.body.references, n ∈ r.definitions.map Definition.name) ∧ d.body.Valid := by
  obtain ⟨id, t, read, expands⟩ := settled.expands resolved
  generalize same : d.name = name at expands
  cases expands with
  | @reference other _ there body =>
    obtain rfl := List.inj_on_of_nodup_map settled.distinct hd there same
    refine ⟨fun n hn => ?_, body.valid (settled.forest.valid_type read)⟩
    obtain ⟨_, inner⟩ := body.exists_reference hn
    exact inner.defined

theorem forall₂_namedRoots (all : ∀ d ∈ r.definitions, ∃ id, r.root? d.name = some id) :
    List.Forall₂ (fun d root => root.1 = d.name ∧ r.root? d.name = some root.2) r.definitions r.namedRoots := by
  rw [namedRoots]
  generalize r.definitions = definitions at all ⊢
  induction definitions with
  | nil => exact .nil
  | cons d rest ih =>
    obtain ⟨id, root⟩ := all d (by simp)
    rw [List.filterMap_cons, root]
    exact .cons ⟨rfl, root⟩ (ih fun e he => all e (by simp [he]))

section Resolves
variable {result : Except ResolveError Unit}

theorem Resolves.not_circular (resolves : r.Resolves (r.definitions.map Definition.name) result r')
    (acyclic : ∀ n, ¬ TransGen (Definition.Link r.definitions) n n) (cycle : List String) :
    result ≠ .error (.circular cycle) := by
  intro failed
  obtain ⟨_, _, cause⟩ := resolves.cause _ failed
  obtain ⟨n, way⟩ := cycle_of_cause cause
  exact acyclic n way

theorem Resolves.sound (resolves : r.Resolves (r.definitions.map Definition.name) result r')
    (ok : result = .ok ()) (hd : d ∈ r.definitions) :
    (∀ n ∈ d.body.references, n ∈ r.definitions.map Definition.name) ∧ d.body.Valid := by
  have same := resolves.definitions
  have sound := resolves.settled.sound (same.symm ▸ hd) (resolves.done ok d.name (List.mem_map_of_mem hd))
  rwa [same] at sound

theorem Resolves.complete (resolves : r.Resolves (r.definitions.map Definition.name) result r')
    (acyclic : ∀ n, ¬ TransGen (Definition.Link r.definitions) n n)
    (defined : ∀ d ∈ r.definitions, ∀ n ∈ d.body.references, n ∈ r.definitions.map Definition.name)
    (valid : ∀ d ∈ r.definitions, d.body.Valid) : result = .ok () := by
  cases result with
  | ok => rfl
  | error e =>
    obtain ⟨n, hn, cause⟩ := resolves.cause e rfl
    rcases flaw_of_cause hn cause with ⟨n, way⟩ | ⟨d, hd, n, hn, undefined⟩ | ⟨d, hd, invalid⟩
    · exact absurd way (acyclic n)
    · exact absurd (defined d hd n hn) undefined
    · exact absurd (valid d hd) invalid

theorem Resolves.namedRoots (resolves : r.Resolves (r.definitions.map Definition.name) result r')
    (ok : result = .ok ()) :
    List.Forall₂ (fun d root => root.1 = d.name ∧ r'.root? d.name = some root.2) r.definitions r'.namedRoots := by
  rw [← resolves.definitions]
  apply forall₂_namedRoots
  intro d hd
  rw [resolves.definitions] at hd
  exact resolves.settled.mem_order_iff.1 (resolves.done ok d.name (List.mem_map_of_mem hd))

end Resolves

end Everything

theorem Settled.expands_iff (settled : r.Settled) {t u : Ty} {body : Ty}
    (expands : Ty.Expands r.definitions body t) : Ty.Expands r.definitions body u ↔ u = t := by
  constructor
  · intro other
    exact other.unique settled.distinct expands
  · rintro rfl
    exact expands

end Resolver

/-- After any calls, refused or not: a root reads back as the one expansion of its name; the order of
resolution lists the names that have a root, once each and after all names they refer to; a call that is
refused takes no definition, root or place in that order away; and what a parameter list was resolved to
reads back as its one expansion, then and after all later calls. -/
theorem resolution_of_history (calls : List Call) :
    let r := Resolver.history calls
    (∀ name id, r.root? name = some id → ∃ t, r.arena.type? id = some t ∧
      ∀ u, Ty.Expands r.definitions (.reference name) u ↔ u = t) ∧
    r.order.Nodup ∧
    (∀ name, name ∈ r.order ↔ ∃ id, r.root? name = some id) ∧
    Follows (Definition.Refers r.definitions) r.order ∧
    (∀ call, r.Refuses call → (r.after call).definitions = r.definitions ∧
      (∀ name id, r.root? name = some id → (r.after call).root? name = some id) ∧
      r.order <+: (r.after call).order) ∧
    ∀ name params id, (r.resolveParams name params).1 = .ok id → ∀ later, ∃ t,
      (Resolver.history (calls ++ .resolveParams name params :: later)).arena.type? id = some t ∧
      ∀ u, Ty.Expands r.definitions (.record params) u ↔ u = t := by
  intro r
  have reachable : r.Reachable := Resolver.reachable_foldl .empty calls
  have settled : r.Settled := reachable.settled
  refine ⟨?_, settled.once, fun _ => settled.mem_order_iff, settled.follows, ?_, ?_⟩
  · intro name id root
    obtain ⟨t, read, expands⟩ := settled.reads _ (Resolver.mem_roots_of_root? root)
    exact ⟨t, read, fun u => settled.expands_iff expands⟩
  · intro call refused
    obtain ⟨definitions, roots⟩ := settled.refused refused
    have settled' : (r.after call).Settled := (reachable.after call).settled
    exact ⟨definitions, fun name id => Resolver.root?_of_prefix roots, settled.order_prefix settled' roots⟩
  · intro name params id resolved later
    have reachable' := reachable.after (.resolveParams name params)
    obtain ⟨t, read, expands⟩ := Resolver.reads_intern reachable.forest (Prod.ext resolved rfl)
    have longer := Resolver.extends_foldl reachable' later
    refine ⟨t, ?_, fun u => settled.expands_iff expands⟩
    rw [Resolver.history, List.foldl_append, List.foldl_cons]
    exact (reachable'.forest.type?_later longer (Arena.lt_size_of_type? read)).trans read

/-- Definitions of which one mentions a name that comes only later, so that the first attempt resolves a part
of them. -/
def Call.resumed : List Call :=
  [.add ⟨"Order", .record [⟨"lines", .array (.reference "Line") none⟩, ⟨"note", .reference "Note"⟩]⟩,
    .add ⟨"Line", .record [⟨"x", .uint 64⟩, ⟨"y", .bool⟩]⟩, .resolveAll, .add ⟨"Note", .bytes⟩, .resolveAll]

theorem resolution_of_resumed_history :
    let r := Resolver.history Call.resumed
    r.order = ["Line", "Note", "Order"] ∧
    (∃ t, r.arena.type? 13 = some t ∧ ∀ u, Ty.Expands r.definitions (.reference "Order") u ↔ u = t) ∧
    (r.after (.add ⟨"Line", .bool⟩)).root? "Order" = some 13 := by
  intro r
  obtain ⟨roots, _, _, _, refused, _⟩ := resolution_of_history Call.resumed
  have root : r.root? "Order" = some 13 := by decide
  have again : r.Refuses (.add ⟨"Line", .bool⟩) := ⟨.duplicateType "Line", rfl⟩
  exact ⟨by decide, roots "Order" 13 root, (refused _ again).2.1 "Order" 13 root⟩

/-- Resolving everything succeeds exactly if every mentioned name is defined, no definition leads back to
itself and every body is valid; it reports a cycle exactly if there is one among the definitions, and then
before it resolves anything; and when it succeeds every definition has a root, listed in order of
declaration. -/
theorem resolveAll_of_history (calls : List Call) :
    let r := Resolver.history calls
    (r.resolveAll.1 = .ok () ↔
      (∀ d ∈ r.definitions, ∀ n ∈ d.body.references, n ∈ r.definitions.map Definition.name) ∧
      (∀ n, ¬ TransGen (Definition.Link r.definitions) n n) ∧ ∀ d ∈ r.definitions, d.body.Valid) ∧
    ((∃ cycle, r.resolveAll.1 = .error (.circular cycle)) ↔
      ∃ n, TransGen (Definition.Link r.definitions) n n) ∧
    (∀ order, (Graph.ofDefinitions r.definitions).dependencyOrder = .ok order →
      ∀ cycle, (Resolver.resolveList order r).1 ≠ .error (.circular cycle)) ∧
    (r.resolveAll.1 = .ok () → List.Forall₂
      (fun d root => root.1 = d.name ∧ r.resolveAll.2.root? d.name = some root.2)
      r.definitions r.resolveAll.2.namedRoots) := by
  intro r
  have settled : r.Settled := Resolver.settled_history calls
  have links := settled.dependencyOrder_iff
  cases found : (Graph.ofDefinitions r.definitions).dependencyOrder with
  | error c =>
    have failed : r.resolveAll.1 = .error (.circular c.path) := by rw [Resolver.resolveAll, found]
    have cyclic : ∃ n, TransGen (Definition.Link r.definitions) n n := by
      by_contra acyclic
      obtain ⟨order, ok⟩ := links.2 (not_exists.1 acyclic)
      rw [found] at ok
      cases ok
    obtain ⟨n, way⟩ := cyclic
    rw [failed]
    exact ⟨⟨by simp, fun sound => absurd way (sound.2.1 n)⟩, ⟨fun _ => ⟨n, way⟩, fun _ => ⟨_, rfl⟩⟩, by simp,
      by simp⟩
  | ok order =>
    have acyclic := links.1 ⟨order, found⟩
    have whole : r.resolveAll = Resolver.resolveList order r := by rw [Resolver.resolveAll, found]
    have resolves := settled.resolves found
    have never := resolves.not_circular acyclic
    rw [whole]
    refine ⟨⟨fun ok => ?_, fun sound => ?_⟩, ⟨?_, ?_⟩, ?_, resolves.namedRoots⟩
    · exact ⟨fun d hd => (resolves.sound ok hd).1, acyclic, fun d hd => (resolves.sound ok hd).2⟩
    · exact resolves.complete acyclic sound.1 sound.2.2
    · rintro ⟨cycle, failed⟩
      exact absurd failed (never cycle)
    · rintro ⟨n, way⟩
      exact absurd way (acyclic n)
    · rintro _ ⟨⟩
      exact never

/-- Two definitions that mention each other, one of them inside an array. -/
def Call.knotted : List Call :=
  [.add ⟨"Node", .record [⟨"children", .reference "Nodes"⟩]⟩, .add ⟨"Nodes", .array (.reference "Node") none⟩]

theorem resolveAll_of_knotted_history :
    (∃ cycle, (Resolver.history Call.knotted).resolveAll.1 = .error (.circular cycle)) ∧
      let r := Resolver.history Call.resumed
      List.Forall₂ (fun d root => root.1 = d.name ∧ r.resolveAll.2.root? d.name = some root.2)
        r.definitions r.resolveAll.2.namedRoots := by
  constructor
  · obtain ⟨_, circular, _⟩ := resolveAll_of_history Call.knotted
    refine circular.2 ⟨"Node", .tail (.single (b := "Nodes") ?_) ?_⟩
    · exact ⟨⟨_, List.mem_cons_self, rfl, by decide⟩, by decide⟩
    · exact ⟨⟨_, List.mem_cons_of_mem _ List.mem_cons_self, rfl, by decide⟩, by decide⟩
  · obtain ⟨_, _, _, listed⟩ := resolveAll_of_history Call.resumed
    exact listed rfl

end Calldata

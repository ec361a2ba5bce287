import Calldata.Proofs.DeclarationOrder
import Calldata.Proofs.Resolution

/-!
Resolving a parameter list, whatever the definitions are. Every reference that is followed opens a definition
that was not open, so resolution ends although no bound is set to it. It succeeds exactly if all that the
parameters lead to is defined and valid, and none of it leads back to itself. When it meets a cycle it reports
the way to it and once round it; only without a way to it this is a closed path.
-/
namespace Calldata
open Relation

namespace Interning
variable {definitions : List Definition} {visiting : List String} {owner target : String}

def unopened (definitions : List Definition) (visiting : List String) : List String :=
  (definitions.map Definition.name).filter (· ∉ visiting)

theorem unopened_lt {d : Definition} (found : definitions.find? (·.name == target) = some d)
    (new : target ∉ visiting) :
    (unopened definitions (visiting ++ [target])).length < (unopened definitions visiting).length := by
  have fewer : unopened definitions (visiting ++ [target]) = (unopened definitions visiting).filter (· ≠ target) := by
    rw [unopened, unopened, List.filter_filter]
    refine List.filter_congr fun n _ => ?_
    simp [and_comm]
  obtain rfl : d.name = target := by simpa using List.find?_some found
  have defined : d.name ∈ definitions.map Definition.name := List.mem_map_of_mem (List.mem_of_find?_eq_some found)
  rw [fewer, List.length_filter_lt_length_iff_exists]
  exact ⟨d.name, List.mem_filter.2 ⟨defined, by simpa using new⟩, by simp⟩

def unfolded (definitions : List Definition) (visiting : List String) (owner target : String) : Interning NodeId :=
  if again : target ∈ visiting then throw (.circular (visiting ++ [target]))
  else
    match found : definitions.find? (·.name == target) with
    | none => throw (.unknownType owner target)
    | some d =>
      have := unopened_lt found again
      internWith (fun owner n => unfolded definitions (visiting ++ [target]) owner n) target (some target) d.body
termination_by (unopened definitions visiting).length

theorem unfolded_eq (definitions : List Definition) (visiting : List String) (owner target : String) :
    unfolded definitions visiting owner target =
      if target ∈ visiting then throw (.circular (visiting ++ [target]))
      else
        match definitions.find? (·.name == target) with
        | none => throw (.unknownType owner target)
        | some d => internWith (unfolded definitions (visiting ++ [target])) target (some target) d.body := by
  rw [unfolded]
  split
  · rfl
  · split
    · next missing => rw [missing]
    · next d found => simp only [found]

/-- The bound on the depth of an expansion is never met. -/
theorem expand_eq_unfolded {fuel : Nat} (deep : (unopened definitions visiting).length < fuel) :
    Interning.expand definitions fuel visiting owner target = unfolded definitions visiting owner target := by
  induction fuel generalizing visiting owner target with
  | zero => exact absurd deep (Nat.not_lt_zero _)
  | succ fuel ih =>
    rw [Interning.expand, unfolded_eq]
    by_cases again : target ∈ visiting
    · rw [if_pos again, if_pos again]
    · rw [if_neg again, if_neg again]
      cases found : definitions.find? (·.name == target) with
      | none => rfl
      | some d =>
        have fewer := unopened_lt found again
        have inner : Interning.expand definitions fuel (visiting ++ [target]) =
            unfolded definitions (visiting ++ [target]) := by
          funext owner n
          exact ih (by omega)
        rw [inner]

/-- An expansion that meets a cycle has followed references all the way to the name it meets again. -/
theorem trail_of_unfolded {cycle : List String} {a later : Arena}
    (trail : Trail (definitions.map Definition.name) (Definition.Refers definitions) visiting)
    (leads : ∀ last ∈ visiting.getLast?, Definition.Refers definitions last target)
    (h : (unfolded definitions visiting owner target).run.run a = (.error (.circular cycle), later)) :
    ∃ path n, cycle = path ++ [n] ∧ visiting ++ [target] <+: cycle ∧
      Trail (definitions.map Definition.name) (Definition.Refers definitions) path ∧
      (∀ last ∈ path.getLast?, Definition.Refers definitions last n) ∧ n ∈ path := by
  induction visiting, owner, target using unfolded.induct definitions generalizing a later with
  | case1 visiting owner target again =>
    rw [unfolded_eq, if_pos again] at h
    cases h
    exact ⟨visiting, target, rfl, List.prefix_rfl, trail, leads, again⟩
  | case2 visiting owner target new missing =>
    rw [unfolded_eq, if_neg new, missing] at h
    cases h
  | case3 visiting owner target new d found _ ih =>
    rw [unfolded_eq, if_neg new, found] at h
    have defined : d ∈ definitions := List.mem_of_find?_eq_some found
    obtain rfl : d.name = target := by simpa using List.find?_some found
    rcases internWith_error d.name (some d.name) d.body a later _ h with ⟨blames, _⟩ | ⟨n, hn, b, later, failed⟩
    · exact absurd rfl (blames.ne_circular cycle)
    · have refers : Definition.Refers definitions d.name n := ⟨d, defined, rfl, hn⟩
      obtain ⟨path, m, eq, longer, found⟩ :=
        ih d.name n (trail.snoc leads new (List.mem_map_of_mem defined)) (by simpa using refers) failed
      exact ⟨path, m, eq, (List.prefix_append _ _).trans longer, found⟩

end Interning

namespace Definition
variable {definitions : List Definition} {m n : String}

instance : Decidable (Refers definitions m n) :=
  inferInstanceAs (Decidable (∃ d ∈ definitions, d.name = m ∧ n ∈ d.body.references))

/-- The name is defined, its definition is valid, and so is all that this leads to. -/
inductive Sound (definitions : List Definition) : String → Prop
  | intro {d : Definition} (defined : d ∈ definitions) (valid : d.body.Valid)
      (onwards : ∀ n ∈ d.body.references, Sound definitions n) : Sound definitions d.name

theorem Sound.defined (h : Sound definitions n) : n ∈ definitions.map name := by
  cases h with
  | intro defined _ _ => exact List.mem_map_of_mem defined

theorem Sound.valid (distinct : (definitions.map name).Nodup) {d : Definition} (hd : d ∈ definitions)
    (h : Sound definitions d.name) : d.body.Valid := by
  generalize same : d.name = n at h
  cases h with
  | intro defined valid _ =>
    rwa [List.inj_on_of_nodup_map distinct hd defined same]

theorem Sound.next (distinct : (definitions.map name).Nodup) (h : Sound definitions m)
    (refers : Refers definitions m n) : Sound definitions n := by
  cases h with
  | intro defined _ onwards =>
    obtain ⟨d, hd, same, hn⟩ := refers
    rw [List.inj_on_of_nodup_map distinct hd defined same] at hn
    exact onwards n hn

theorem Sound.reach (distinct : (definitions.map name).Nodup) (h : Sound definitions m)
    (way : ReflTransGen (Refers definitions) m n) : Sound definitions n := by
  induction way with
  | refl => exact h
  | tail _ refers ih => exact ih.next distinct refers

theorem Sound.acyclic (distinct : (definitions.map name).Nodup) (h : Sound definitions n) :
    ¬ TransGen (Refers definitions) n n := by
  induction h with
  | @intro d defined _ _ ih =>
    intro way
    obtain ⟨next, refers, back⟩ := TransGen.head'_iff.1 way
    have mentioned : next ∈ d.body.references := by
      obtain ⟨d', hd', same, hn⟩ := refers
      rwa [List.inj_on_of_nodup_map distinct hd' defined same] at hn
    -- the next name goes round as well
    exact ih next mentioned (.tail' back refers)

end Definition

theorem Ty.Expands.sound {definitions : List Definition} {t u : Ty} (h : Ty.Expands definitions t u)
    (valid : u.Valid) : ∀ n ∈ t.references, Definition.Sound definitions n := by
  induction h with
  | elementary | enumeration | function => exact nofun
  | array _ ih => exact ih valid.2
  | record names _ ih =>
    intro n hn
    obtain ⟨f, hf, hn⟩ := Ty.mem_referencesOfFields.1 hn
    obtain ⟨g, hp⟩ := Ty.exists_mem_zip names hf
    exact ih _ hp (Ty.validEach_iff.1 valid.2 g (List.of_mem_zip hp).2) n hn
  | reference defined body ih =>
    intro n hn
    obtain rfl := List.mem_singleton.1 hn
    exact .intro defined (body.valid valid) (ih valid)

/-- What goes once round after a way to it is closed only without such a way. -/
theorem ClosedPath.eq_nil_of_append {edge : String → String → Prop} {way others : List String} {n : String}
    (closed : ClosedPath edge (way ++ (n :: others ++ [n]))) (once : (way ++ n :: others).Nodup) : way = [] := by
  obtain ⟨m, rest, eq, _⟩ := closed
  rw [← List.append_assoc] at eq
  obtain ⟨front, back⟩ := List.append_inj' eq rfl
  obtain rfl : n = m := by simpa using back
  cases way with
  | nil => rfl
  | cons first way =>
    obtain ⟨rfl, _⟩ := List.cons.inj front
    simp at once

namespace Resolver
variable {r : Resolver} {name : String} {params : List Field} {e : ResolveError} {cycle : List String}

def resolveFully (r : Resolver) (name : String) (params : List Field) : Except ResolveError NodeId × Resolver :=
  let outcome := (Interning.internWith (Interning.unfolded r.definitions []) name (some name)
    (.record params)).run.run r.arena
  (outcome.1, { r with arena := outcome.2 })

theorem expand_eq_unfolded (r : Resolver) : Interning.expand r.definitions (r.definitions.length + 1) [] =
    Interning.unfolded r.definitions [] := by
  funext owner target
  apply Interning.expand_eq_unfolded
  rw [Nat.lt_succ_iff, ← List.length_map (f := Definition.name)]
  exact List.length_filter_le _ _

theorem resolveParams_eq (r : Resolver) (name : String) (params : List Field) :
    r.resolveParams name params = r.resolveFully name params := by
  rw [resolveParams, intern, expand_eq_unfolded]
  rfl

def Reached (r : Resolver) (params : List Field) (n : String) : Prop :=
  ∃ m ∈ (Ty.record params).references, ReflTransGen (Definition.Refers r.definitions) m n

theorem fault_of_params (h : (r.resolveParams name params).1 = .error e) :
    (Interning.Blames name e ∧ ¬ (Ty.record params).Valid) ∨
      Interning.Fails (Interning.unfolded r.definitions []) name (Ty.record params).references e := by
  rw [resolveParams_eq] at h
  exact Interning.internWith_error name (some name) (.record params) r.arena _ e (Prod.ext h rfl)

theorem flaw_of_params (h : (r.resolveParams name params).1 = .error e) :
    (∃ n, r.Reached params n ∧ n ∉ r.definitions.map Definition.name) ∨
      (∃ n, r.Reached params n ∧ TransGen (Definition.Refers r.definitions) n n) ∨
      ¬ (Ty.record params).Valid ∨ ∃ d ∈ r.definitions, r.Reached params d.name ∧ ¬ d.body.Valid := by
  rcases fault_of_params h with ⟨_, invalid⟩ | ⟨m, hm, a, later, failed⟩
  · exact .inr (.inr (.inl invalid))
  · rw [← expand_eq_unfolded] at failed
    have cause := Interning.cause_of_expand .nil (by simp) (by simp) failed
    rcases cause.flaw with ⟨n, way, undefined⟩ | ⟨n, way, round⟩ | ⟨d, hd, way, invalid⟩
    · exact .inl ⟨n, ⟨m, hm, way⟩, undefined⟩
    · exact .inr (.inl ⟨n, ⟨m, hm, way⟩, round⟩)
    · exact .inr (.inr (.inr ⟨d, hd, ⟨m, hm, way⟩, invalid⟩))

theorem Settled.sound_params (settled : r.Settled) {id : NodeId} (h : (r.resolveParams name params).1 = .ok id) :
    (Ty.record params).Valid ∧ ∀ n, r.Reached params n → Definition.Sound r.definitions n := by
  obtain ⟨t, read, expands⟩ := reads_intern settled.forest (Prod.ext h rfl)
  have valid : t.Valid := (settled_intern settled [] name (.record params)).forest.valid_type read
  refine ⟨expands.valid valid, ?_⟩
  rintro n ⟨m, hm, way⟩
  exact (expands.sound valid m hm).reach settled.distinct way

theorem exists_round_of_params (h : (r.resolveParams name params).1 = .error (.circular cycle)) :
    ∃ way n others, cycle = way ++ (n :: others ++ [n]) ∧ (way ++ n :: others).Nodup ∧
      cycle.IsChain (Definition.Refers r.definitions) ∧ ∃ m ∈ (Ty.record params).references, cycle.head? = some m := by
  rcases fault_of_params h with ⟨blames, _⟩ | ⟨m, hm, a, later, failed⟩
  · exact absurd rfl (blames.ne_circular cycle)
  · obtain ⟨path, n, rfl, starts, trail, leads, again⟩ := Interning.trail_of_unfolded .nil (by simp) failed
    obtain ⟨way, others, rfl⟩ := List.append_of_mem again
    refine ⟨way, n, others, by simp, trail.once, ?_, m, hm, ?_⟩
    · exact List.isChain_append.2 ⟨trail.chain, List.isChain_singleton n, by simpa using leads⟩
    · obtain ⟨rest, eq⟩ := starts
      rw [← eq]
      rfl

/-- The cycle that is reported when everything is resolved is the one that the dependency order has found. -/
theorem Settled.closedPath_of_resolveAll (settled : r.Settled) (h : r.resolveAll.1 = .error (.circular cycle)) :
    ClosedPath (Definition.Refers r.definitions) cycle := by
  rw [resolveAll] at h
  cases found : (Graph.ofDefinitions r.definitions).dependencyOrder with
  | error c =>
    rw [found] at h
    cases h
    have closed := Graph.closedPath_dependencyOrder found
    rwa [settled.edge_eq] at closed
  | ok order =>
    rw [found] at h
    have acyclic := settled.dependencyOrder_iff.1 ⟨order, found⟩
    exact absurd h ((settled.resolves found).not_circular acyclic cycle)

end Resolver

/-- Resolving parameters ends at any depth, and succeeds exactly if every name that they lead to is defined, none
of these leads back to itself, and the parameters and all definitions that they lead to are valid. -/
theorem resolveParams_of_history (calls : List Call) (name : String) (params : List Field) :
    let r := Resolver.history calls
    r.resolveParams name params = r.resolveFully name params ∧
    ((∃ id, (r.resolveParams name params).1 = .ok id) ↔
      (∀ n, r.Reached params n → n ∈ r.definitions.map Definition.name) ∧
      (∀ n, r.Reached params n → ¬ TransGen (Definition.Refers r.definitions) n n) ∧
      (Ty.record params).Valid ∧ ∀ d ∈ r.definitions, r.Reached params d.name → d.body.Valid) := by
  intro r
  have settled : r.Settled := Resolver.settled_history calls
  refine ⟨r.resolveParams_eq name params, ?_, ?_⟩
  · rintro ⟨id, ok⟩
    obtain ⟨valid, sound⟩ := settled.sound_params ok
    exact ⟨fun n reached => (sound n reached).defined, fun n reached => (sound n reached).acyclic settled.distinct,
      valid, fun d hd reached => (sound d.name reached).valid settled.distinct hd⟩
  · rintro ⟨defined, acyclic, valid, bodies⟩
    cases result : (r.resolveParams name params).1 with
    | ok id => exact ⟨id, rfl⟩
    | error e =>
      rcases Resolver.flaw_of_params result with
        ⟨n, reached, undefined⟩ | ⟨n, reached, round⟩ | invalid | ⟨d, hd, reached, invalid⟩
      · exact absurd (defined n reached) undefined
      · exact absurd round (acyclic n reached)
      · exact absurd valid invalid
      · exact absurd (bodies d hd reached) invalid

/-- A definition that two parameters share, beside two that mention each other. -/
theorem resolveParams_of_knotted_history :
    let calls : List Call := .add ⟨"Point", .record [⟨"x", .uint 64⟩]⟩ :: Call.knotted ++ [.resolveAll]
    let r := Resolver.history calls
    let shared : List Field := [⟨"from", .reference "Point"⟩, ⟨"to", .array (.reference "Point") (some 2)⟩]
    (r.resolveParams "draw" shared).1 = .ok 5 ∧
      (∀ n, r.Reached shared n → n ∈ r.definitions.map Definition.name) ∧
      ¬ ∃ id, (r.resolveParams "draw" (shared ++ [⟨"on", .reference "Node"⟩])).1 = .ok id := by
  intro calls r shared
  have ok : (r.resolveParams "draw" shared).1 = .ok 5 := rfl
  obtain ⟨_, accepted⟩ := resolveParams_of_history calls "draw" shared
  obtain ⟨_, refused⟩ := resolveParams_of_history calls "draw" (shared ++ [⟨"on", .reference "Node"⟩])
  have round : ("Node" :: ["Nodes"] ++ ["Node"]).IsChain (Definition.Refers r.definitions) := by decide
  refine ⟨ok, (accepted.1 ⟨5, ok⟩).1, fun found => ?_⟩
  exact (refused.1 found).2.1 "Node" ⟨"Node", by decide, .refl⟩ (transGen_of_isChain round)

/-- A cycle that is reported when everything is resolved is a closed path. When parameters are resolved the report
begins with a name that they mention, follows references, and ends with a closed path; it is one itself only if
that name is on the cycle. -/
theorem cycles_of_history (calls : List Call) :
    let r := Resolver.history calls
    let refers := Definition.Refers r.definitions
    (∀ cycle, r.resolveAll.1 = .error (.circular cycle) → ClosedPath refers cycle) ∧
    ∀ name params cycle, (r.resolveParams name params).1 = .error (.circular cycle) →
      ∃ way round, cycle = way ++ round ∧ ClosedPath refers round ∧ cycle.IsChain refers ∧ cycle.dropLast.Nodup ∧
        (∃ m ∈ (Ty.record params).references, cycle.head? = some m) ∧ (ClosedPath refers cycle ↔ way = []) := by
  intro r refers
  have settled : r.Settled := Resolver.settled_history calls
  refine ⟨fun cycle failed => settled.closedPath_of_resolveAll failed, ?_⟩
  intro name params cycle failed
  obtain ⟨way, n, others, rfl, once, chain, starts⟩ := Resolver.exists_round_of_params failed
  have round : ClosedPath refers (n :: others ++ [n]) :=
    ⟨n, others, rfl, (List.nodup_append.1 once).2.1, chain.right_of_append⟩
  refine ⟨way, n :: others ++ [n], rfl, round, chain, ?_, starts, fun closed => closed.eq_nil_of_append once, ?_⟩
  · rwa [← List.append_assoc, List.dropLast_concat]
  · rintro rfl
    exact round

/-- An account that leads to entries that lead to each other. -/
def Call.journal : List Call :=
  [.add ⟨"Account", .record [⟨"history", .reference "Entry"⟩]⟩,
    .add ⟨"Entry", .record [⟨"previous", .array (.reference "Entry") none⟩]⟩]

theorem cycles_of_journal :
    let r := Resolver.history Call.journal
    let refers := Definition.Refers r.definitions
    ClosedPath refers ["Entry", "Entry"] ∧
      ∃ way round, ["Account", "Entry", "Entry"] = way ++ round ∧ ClosedPath refers round := by
  intro r refers
  obtain ⟨everything, parameters⟩ := cycles_of_history Call.journal
  obtain ⟨way, round, eq, closed, _⟩ := parameters "close" [⟨"account", .reference "Account"⟩] _ rfl
  exact ⟨everything _ rfl, way, round, eq, closed⟩

/-- A report that begins off the cycle it is about. -/
theorem cycle_of_params_not_closed :
    let r := Resolver.history Call.journal
    (r.resolveParams "close" [⟨"account", .reference "Account"⟩]).1 = .error (.circular ["Account", "Entry", "Entry"]) ∧
      ¬ ClosedPath (Definition.Refers r.definitions) ["Account", "Entry", "Entry"] := by
  intro r
  refine ⟨rfl, fun closed => ?_⟩
  have round : ClosedPath (Definition.Refers r.definitions) (["Account"] ++ ("Entry" :: [] ++ ["Entry"])) := closed
  cases round.eq_nil_of_append (by decide)

end Calldata

import Calldata.Proofs.DependencyOrder
import Calldata.Proofs.TreeLayout

/-!
What resolution makes of a description. The nodes it adds read back as the description with every
reference replaced by the definition it names, until none is left. Where it fails, the fault is in the
description or in something that its references lead to.
-/
namespace Calldata
open Relation

theorem Elementary.isValid_iff {e : Elementary} : e.isValid = true ↔ e.kind.Width e.width.toNat := by
  refine ⟨width_of_isValid, fun h => ?_⟩
  unfold isValid ElementaryKind.admits
  cases hk : e.kind with
  | uint | int | byte =>
    rw [hk] at h
    simp only [Bool.and_eq_true, decide_eq_true_eq, beq_iff_eq]
    exact ⟨h.2, Nat.mod_eq_zero_of_dvd h.1⟩
  | bool | address | bytes | string =>
    rw [hk] at h
    exact beq_iff_eq.2 (UInt16.toNat_inj.1 h)

theorem firstRepeated_eq_none_iff {seen names : List String} :
    firstRepeated seen names = none ↔ names.Nodup ∧ ∀ name ∈ names, name ∉ seen := by
  refine ⟨nodup_of_firstRepeated, fun h => ?_⟩
  induction names generalizing seen with
  | nil => rfl
  | cons name rest ih =>
    obtain ⟨once, unseen⟩ := h
    obtain ⟨new, once⟩ := List.nodup_cons.1 once
    rw [firstRepeated, if_neg (unseen name (by simp))]
    refine ih ⟨once, fun other there => ?_⟩
    rw [List.mem_cons, not_or]
    exact ⟨fun same => new (same ▸ there), unseen other (by simp [there])⟩

namespace Ty

mutual

/-- Nothing in the description is refused for its own sake, at any depth. -/
def Valid : Ty → Prop
  | .elementary e => e.kind.Width e.width.toNat
  | .enumeration variants => 1 ≤ variants.length ∧ variants.length ≤ 256 ∧ variants.Nodup
  | .array element length => length ≠ some 0 ∧ element.Valid
  | .record fields => (fields.map Field.name).Nodup ∧ ValidEach fields
  | .function => True
  | .reference _ => True

def ValidEach : List Field → Prop
  | [] => True
  | ⟨_, type⟩ :: rest => type.Valid ∧ ValidEach rest

end

/-- The description with every reference replaced by the definition it names, again and again. -/
inductive Expands (definitions : List Definition) : Ty → Ty → Prop
  | elementary (e : Elementary) : Expands definitions (.elementary e) (.elementary e)
  | enumeration (variants : List String) :
      Expands definitions (.enumeration variants) (.enumeration variants)
  | array {t u : Ty} {length : Option UInt64} (element : Expands definitions t u) :
      Expands definitions (.array t length) (.array u length)
  | record {fields expanded : List Field} (names : fields.map Field.name = expanded.map Field.name)
      (types : ∀ p ∈ fields.zip expanded, Expands definitions p.1.type p.2.type) :
      Expands definitions (.record fields) (.record expanded)
  | function : Expands definitions .function .function
  | reference {d : Definition} {u : Ty} (defined : d ∈ definitions) (body : Expands definitions d.body u) :
      Expands definitions (.reference d.name) u

variable {definitions : List Definition} {t u v : Ty} {fields expanded : List Field} {n : String}

theorem validEach_iff : ValidEach fields ↔ ∀ f ∈ fields, f.type.Valid := by
  induction fields with
  | nil => simp [ValidEach]
  | cons f rest ih =>
    cases f
    rw [ValidEach, ih, List.forall_mem_cons]

theorem mem_referencesOfFields : n ∈ referencesOfFields fields ↔ ∃ f ∈ fields, n ∈ f.type.references := by
  induction fields with
  | nil => simp [referencesOfFields]
  | cons f rest ih =>
    cases f
    rw [referencesOfFields, List.mem_append, ih, List.exists_mem_cons_iff]

theorem exists_mem_zip (names : fields.map Field.name = expanded.map Field.name) {f : Field}
    (hf : f ∈ fields) : ∃ g, (f, g) ∈ fields.zip expanded := by
  have length : fields.length = expanded.length := by simpa using congrArg List.length names
  rw [← List.map_fst_zip (Nat.le_of_eq length)] at hf
  obtain ⟨⟨_, g⟩, hp, rfl⟩ := List.mem_map.1 hf
  exact ⟨g, hp⟩

theorem Expands.mono {more : List Definition} (subset : definitions ⊆ more)
    (h : Expands definitions t u) : Expands more t u := by
  induction h with
  | elementary e => exact .elementary e
  | enumeration variants => exact .enumeration variants
  | array _ ih => exact .array ih
  | record names _ ih => exact .record names ih
  | function => exact .function
  | reference defined _ ih => exact .reference (subset defined) ih

theorem Expands.valid (h : Expands definitions t u) (valid : u.Valid) : t.Valid := by
  induction h with
  | elementary | enumeration => exact valid
  | array _ ih => exact ⟨valid.1, ih valid.2⟩
  | record names _ ih =>
    refine ⟨names ▸ valid.1, validEach_iff.2 fun f hf => ?_⟩
    obtain ⟨g, hp⟩ := exists_mem_zip names hf
    exact ih _ hp (validEach_iff.1 valid.2 g (List.of_mem_zip hp).2)
  | function | reference => trivial

theorem Expands.exists_reference (h : Expands definitions t u) (hn : n ∈ t.references) :
    ∃ v, Expands definitions (.reference n) v := by
  induction h with
  | elementary | enumeration | function => cases hn
  | array _ ih => exact ih hn
  | record names _ ih =>
    obtain ⟨f, hf, hn⟩ := mem_referencesOfFields.1 hn
    obtain ⟨g, hp⟩ := exists_mem_zip names hf
    exact ih _ hp hn
  | @reference d u defined body _ =>
    obtain rfl : n = d.name := List.mem_singleton.1 hn
    exact ⟨u, .reference defined body⟩

theorem Expands.unique (distinct : (definitions.map Definition.name).Nodup) (h : Expands definitions t u)
    (h' : Expands definitions t v) : u = v := by
  induction h generalizing v with
  | elementary | enumeration | function =>
    cases h'
    rfl
  | array _ ih =>
    cases h' with
    | array h' => rw [ih h']
  | @record fields expanded names _ ih =>
    cases h' with
    | @record _ expanded' names' types =>
      refine congrArg Ty.record ?_
      clear * - names ih names' types
      induction fields generalizing expanded expanded' with
      | nil => rw [List.map_eq_nil_iff.1 names.symm, List.map_eq_nil_iff.1 names'.symm]
      | cons f rest ihf =>
        cases expanded with
        | nil => cases names
        | cons g expanded =>
          cases expanded' with
          | nil => cases names'
          | cons g' expanded' =>
            rw [List.map_cons, List.map_cons, List.cons.injEq] at names names'
            have type : g.type = g'.type := ih (f, g) (by simp) (types (f, g') (by simp))
            have name : g.name = g'.name := names.1.symm.trans names'.1
            rw [ihf names.2 (fun p hp => ih p (List.mem_cons_of_mem _ hp)) names'.2
              fun p hp => types p (List.mem_cons_of_mem _ hp)]
            cases g
            cases g'
            cases name
            cases type
            rfl
  | @reference d u defined _ ih =>
    generalize same : d.name = name at h'
    cases h' with
    | @reference e _ defined' body =>
      rw [List.inj_on_of_nodup_map distinct defined defined' same] at ih
      exact ih body

end Ty

/-- The type of a node, from the types of its children. -/
def NodeKind.spell (type : NodeId → Option Ty) : NodeKind → Option Ty
  | .elementary e => some (.elementary e)
  | .enumeration variants _ => some (.enumeration variants)
  | .array element length => (type element).map (Ty.array · length)
  | .record fields => (fields.mapM fun f => (type f.2).map (Field.mk f.1)).map Ty.record
  | .function => some .function

theorem NodeKind.spell_congr {type type' : NodeId → Option Ty} {kind : NodeKind}
    (same : ∀ c ∈ kind.children, type' c = type c) : kind.spell type' = kind.spell type := by
  cases kind with
  | elementary | enumeration | function => rfl
  | array element length => rw [spell, spell, same element (by simp [children])]
  | record fields =>
    have each : fields.mapM (fun f => (type' f.2).map (Field.mk f.1)) =
        fields.mapM fun f => (type f.2).map (Field.mk f.1) := by
      induction fields with
      | nil => rfl
      | cons f rest ih =>
        rw [List.mapM_cons, List.mapM_cons, same f.2 (by simp [children]),
          ih fun c hc => same c (by simp_all [children])]
    rw [spell, spell, each]

namespace Arena
variable {a b : Arena} {id : NodeId} {fuel more : Nat} {t : Ty} {node : Node}

/-- The description that the tree below a node is made from, if it is not deeper than `fuel` levels. -/
def typeWithin (a : Arena) : Nat → NodeId → Option Ty
  | 0, _ => none
  | fuel + 1, id => (a.get? id).bind fun node => node.kind.spell (a.typeWithin fuel)

def type? (a : Arena) (id : NodeId) : Option Ty := a.typeWithin (a.size + 1) id

/-- Nodes that are added later do not change what is read, and reading deeper does not either. -/
theorem Forest.typeWithin_eq (forest : a.Forest) (same : ∀ id < a.size, b.get? id = a.get? id)
    (old : id < a.size) (deep : id < fuel) (deep' : id < more) :
    b.typeWithin more id = a.typeWithin fuel id := by
  induction fuel generalizing id more with
  | zero => exact absurd deep (Nat.not_lt_zero id)
  | succ fuel ih =>
    cases more with
    | zero => exact absurd deep' (Nat.not_lt_zero id)
    | succ more =>
      rw [typeWithin, typeWithin, same id old]
      cases found : a.get? id with
      | none => rfl
      | some node =>
        refine NodeKind.spell_congr fun c hc => ?_
        have less : c < id := forest.below (by rwa [children, found])
        exact ih (Nat.lt_trans less old) (Nat.lt_of_lt_of_le less (Nat.le_of_lt_succ deep))
          (Nat.lt_of_lt_of_le less (Nat.le_of_lt_succ deep'))

theorem Forest.type?_eq (forest : a.Forest) (same : ∀ id < a.size, b.get? id = a.get? id)
    (le : a.size ≤ b.size) (old : id < a.size) : b.type? id = a.type? id :=
  forest.typeWithin_eq same old (Nat.lt_succ_of_lt old) (Nat.lt_succ_of_lt (Nat.lt_of_lt_of_le old le))

theorem Forest.type?_later (forest : a.Forest) (longer : a.Extends b) (old : id < a.size) :
    b.type? id = a.type? id :=
  forest.type?_eq (fun _ => longer.same) longer.size_le old

theorem Forest.type?_push (forest : a.Forest) (below : ∀ c ∈ node.kind.children, c < a.size) :
    (a.push node).type? a.size = node.kind.spell a.type? := by
  have same (id : NodeId) (old : id < a.size) : (a.push node).get? id = a.get? id := by
    rw [get?_push, if_neg (Nat.ne_of_lt old)]
  rw [type?, typeWithin, get?_push, if_pos rfl, size_push]
  refine NodeKind.spell_congr fun c hc => ?_
  have old := below c hc
  exact forest.typeWithin_eq same old (Nat.lt_succ_of_lt old) (Nat.lt_succ_of_lt old)

theorem Forest.valid_type (forest : a.Forest) (h : a.typeWithin fuel id = some t) : t.Valid := by
  induction fuel generalizing id t with
  | zero => cases h
  | succ fuel ih =>
    obtain ⟨node, found, h⟩ := Option.bind_eq_some_iff.1 h
    have lawful := forest.lawful found
    cases kind : node.kind with
    | elementary e =>
      rw [kind] at lawful h
      cases h
      exact lawful
    | enumeration variants bits =>
      rw [kind] at lawful h
      cases h
      exact ⟨lawful.1, lawful.2.1, lawful.2.2.1⟩
    | function =>
      rw [kind] at h
      cases h
      trivial
    | array element length =>
      rw [kind] at lawful h
      obtain ⟨t, inner, rfl⟩ := Option.map_eq_some_iff.1 h
      exact ⟨lawful, ih inner⟩
    | record ids =>
      rw [kind] at lawful h
      obtain ⟨fields, inner, rfl⟩ := Option.map_eq_some_iff.1 h
      have inner := mapM_some_iff.1 inner
      have names : ids.map Prod.fst = fields.map Field.name := by
        clear * - inner
        induction inner with
        | nil => rfl
        | cons first _ rest =>
          obtain ⟨_, _, rfl⟩ := Option.map_eq_some_iff.1 first
          rw [List.map_cons, List.map_cons, rest]
      refine ⟨names ▸ lawful, Ty.validEach_iff.2 fun f hf => ?_⟩
      obtain ⟨i, _, hi⟩ := exists_left_of_forall₂ inner hf
      obtain ⟨t, inner, rfl⟩ := Option.map_eq_some_iff.1 hi
      exact ih inner

end Arena

namespace Interning
variable {α β : Type} {definitions : List Definition} {expand : String → String → Interning NodeId}
  {owner : String} {shown : Option String} {t : Ty} {a later : Arena} {id : NodeId} {e : ResolveError}

theorem run_bind_ok {x : Interning α} {f : α → Interning β} {w : β}
    (h : (x >>= f).run.run a = (.ok w, later)) :
    ∃ v b, x.run.run a = (.ok v, b) ∧ (f v).run.run b = (.ok w, later) := by
  rw [run_bind] at h
  cases hx : x.run.run a with
  | mk result b =>
    rw [hx] at h
    cases result with
    | ok v => exact ⟨v, b, rfl, h⟩
    | error e => cases h

theorem run_bind_error {x : Interning α} {f : α → Interning β}
    (h : (x >>= f).run.run a = (.error e, later)) :
    (∃ b, x.run.run a = (.error e, b)) ∨
      ∃ v b, x.run.run a = (.ok v, b) ∧ (f v).run.run b = (.error e, later) := by
  rw [run_bind] at h
  cases hx : x.run.run a with
  | mk result b =>
    rw [hx] at h
    cases result with
    | ok v => exact .inr ⟨v, b, rfl, h⟩
    | error e =>
      cases h
      exact .inl ⟨_, rfl⟩

section Reading

def Reads (definitions : List Definition) (step : Interning NodeId) (t : Ty) : Prop :=
  ∀ a id later, a.Forest → step.run.run a = (.ok id, later) →
    ∃ u, later.type? id = some u ∧ Ty.Expands definitions t u

def ReadsFields (definitions : List Definition) (step : Interning (List (String × NodeId)))
    (fields : List Field) : Prop :=
  ∀ a ids later, a.Forest → step.run.run a = (.ok ids, later) →
    ∃ expanded, ids.mapM (fun f => (later.type? f.2).map (Field.mk f.1)) = some expanded ∧
      fields.map Field.name = expanded.map Field.name ∧
        ∀ p ∈ fields.zip expanded, Ty.Expands definitions p.1.type p.2.type

theorem type?_of_push {name : String} {kind : NodeKind} (forest : a.Forest)
    (below : ∀ c ∈ kind.children, c < a.size) (h : (push name kind).run.run a = (.ok id, later)) :
    later.type? id = kind.spell a.type? := by
  cases h
  exact forest.type?_push below

mutual

theorem reads_internWith (roots : ∀ owner name, Keeps (expand owner name) Root)
    (reads : ∀ owner name, Reads definitions (expand owner name) (.reference name)) (owner : String)
    (shown : Option String) : (t : Ty) → Reads definitions (internWith expand owner shown t) t
  | .elementary e => by
    intro a id later forest h
    rw [internWith] at h
    split at h
    · exact ⟨_, type?_of_push forest (by simp [NodeKind.children]) h, .elementary e⟩
    · cases h
  | .enumeration variants => by
    intro a id later forest h
    rw [internWith] at h
    split at h
    · cases h
    · split at h
      · cases h
      · exact ⟨_, type?_of_push forest (by simp [NodeKind.children]) h, .enumeration variants⟩
  | .array element length => by
    intro a id later forest h
    rw [internWith] at h
    split at h
    · cases h
    · obtain ⟨child, b, inner, h⟩ := run_bind_ok h
      obtain ⟨_, _, named, h⟩ := run_bind_ok h
      cases named
      obtain ⟨forest', _, new⟩ := keeps_internWith roots owner none element a forest _ b inner
      obtain ⟨u, read, expands⟩ := reads_internWith roots reads owner none element a child b forest inner
      refine ⟨.array u length, ?_, .array expands⟩
      rw [type?_of_push forest' (by simpa [NodeKind.children] using (new child rfl).2.1) h, NodeKind.spell, read]
      rfl
  | .record fields => by
    intro a id later forest h
    rw [internWith] at h
    obtain ⟨ids, b, inner, h⟩ := run_bind_ok h
    obtain ⟨forest', _, new⟩ := keeps_internFields roots owner [] fields a forest _ b inner
    obtain ⟨expanded, read, names, types⟩ :=
      reads_internFields roots reads owner [] fields a ids b forest inner
    refine ⟨.record expanded, ?_, .record names types⟩
    have below : ∀ c ∈ (NodeKind.record ids).children, c < b.size := by
      intro c hc
      obtain ⟨f, hf, rfl⟩ := List.mem_map.1 hc
      exact ((new ids rfl).root f hf).2.1
    rw [type?_of_push forest' below h, NodeKind.spell, read]
    rfl
  | .function => by
    intro a id later forest h
    rw [internWith] at h
    exact ⟨_, type?_of_push forest (by simp [NodeKind.children]) h, .function⟩
  | .reference name => by
    rw [internWith]
    exact reads owner name

theorem reads_internFields (roots : ∀ owner name, Keeps (expand owner name) Root)
    (reads : ∀ owner name, Reads definitions (expand owner name) (.reference name)) (owner : String)
    (seen : List String) :
    (fields : List Field) → ReadsFields definitions (internFields expand owner seen fields) fields
  | [] => by
    intro a ids later forest h
    rw [internFields] at h
    cases h
    exact ⟨[], rfl, rfl, by simp⟩
  | ⟨name, type⟩ :: rest => by
    intro a ids later forest h
    rw [internFields] at h
    split at h
    · cases h
    · obtain ⟨child, b, inner, h⟩ := run_bind_ok h
      obtain ⟨others, _, tail, h⟩ := run_bind_ok h
      cases h
      obtain ⟨forest', _, new⟩ := keeps_internWith roots owner none type a forest _ b inner
      obtain ⟨_, longer, _⟩ := keeps_internFields roots owner (name :: seen) rest b forest' _ later tail
      obtain ⟨u, read, expands⟩ := reads_internWith roots reads owner none type a child b forest inner
      obtain ⟨expanded, reads', names, types⟩ :=
        reads_internFields roots reads owner (name :: seen) rest b others later forest' tail
      -- the rest of the fields is added after the first one was, and does not change it
      have first : later.type? child = some u := (forest'.type?_later longer (new child rfl).2.1).trans read
      refine ⟨⟨name, u⟩ :: expanded, ?_, by simp [names], ?_⟩
      · rw [List.mapM_cons, first, reads']
        rfl
      · rw [List.zip_cons_cons, List.forall_mem_cons]
        exact ⟨expands, types⟩

end

theorem reads_expand (definitions : List Definition) (fuel : Nat) (visiting : List String)
    (owner target : String) :
    Reads definitions (Interning.expand definitions fuel visiting owner target) (.reference target) := by
  induction fuel generalizing visiting owner target with
  | zero =>
    intro a id later _ h
    cases h
  | succ fuel ih =>
    intro a id later forest h
    rw [Interning.expand] at h
    split at h
    · cases h
    · split at h
      · cases h
      · next d found =>
        obtain ⟨u, read, body⟩ := reads_internWith (keeps_expand definitions fuel (visiting ++ [target]))
          (ih (visiting ++ [target])) target (some target) d.body a id later forest h
        have same : d.name = target := by simpa using List.find?_some found
        exact ⟨u, read, same ▸ .reference (List.mem_of_find?_eq_some found) body⟩

end Reading

section Faults

def Blames (owner : String) (e : ResolveError) : Prop :=
  (∃ defect, e = .invalid owner defect) ∨ ∃ field, e = .duplicateField owner field

theorem Blames.ne_circular (h : Blames owner e) (cycle : List String) : e ≠ .circular cycle := by
  rintro rfl
  rcases h with ⟨_, other⟩ | ⟨_, other⟩ <;> cases other

/-- One of the names cannot be expanded, and this is why. -/
def Fails (expand : String → String → Interning NodeId) (owner : String) (names : List String)
    (e : ResolveError) : Prop :=
  ∃ n ∈ names, ∃ a later, (expand owner n).run.run a = (.error e, later)

theorem Fails.mono {names more : List String} (h : Fails expand owner names e) (subset : names ⊆ more) :
    Fails expand owner more e := by
  obtain ⟨n, hn, failed⟩ := h
  exact ⟨n, subset hn, failed⟩

mutual

theorem internWith_error (owner : String) (shown : Option String) : (t : Ty) → ∀ a later e,
    (internWith expand owner shown t).run.run a = (.error e, later) →
      (Blames owner e ∧ ¬ t.Valid) ∨ Fails expand owner t.references e
  | .elementary type => by
    intro a later e h
    rw [internWith] at h
    split at h
    · cases h
    · next invalid =>
      cases h
      exact .inl ⟨.inl ⟨_, rfl⟩, fun valid => invalid (Elementary.isValid_iff.2 valid)⟩
  | .enumeration variants => by
    intro a later e h
    rw [internWith] at h
    split at h
    · next counted =>
      cases h
      refine .inl ⟨.inl ⟨_, rfl⟩, fun valid => ?_⟩
      obtain ⟨_, _, _⟩ := valid
      omega
    · split at h
      · next repeated =>
        cases h
        refine .inl ⟨.inl ⟨_, rfl⟩, fun valid => ?_⟩
        rw [firstRepeated_eq_none_iff.2 ⟨valid.2.2, by simp⟩] at repeated
        cases repeated
      · cases h
  | .array element length => by
    intro a later e h
    rw [internWith] at h
    split at h
    · next empty =>
      cases h
      exact .inl ⟨.inl ⟨_, rfl⟩, fun valid => valid.1 empty⟩
    · rcases run_bind_error h with ⟨b, inner⟩ | ⟨child, b, _, h⟩
      · refine (internWith_error owner none element a b e inner).imp_left fun fault => ⟨fault.1, fun valid => ?_⟩
        exact fault.2 valid.2
      · -- what comes after the element cannot fail
        rcases run_bind_error h with ⟨_, h⟩ | ⟨_, _, _, h⟩ <;> cases h
  | .record fields => by
    intro a later e h
    rw [internWith] at h
    rcases run_bind_error h with ⟨b, inner⟩ | ⟨_, _, _, h⟩
    · refine (internFields_error owner [] fields a b e inner).imp_left fun fault => ⟨fault.1, fun valid => ?_⟩
      exact fault.2 ⟨valid.1, by simp, valid.2⟩
    · cases h
  | .function => by
    intro a later e h
    rw [internWith] at h
    cases h
  | .reference name => by
    intro a later e h
    rw [internWith] at h
    exact .inr ⟨name, by simp [Ty.references], a, later, h⟩

theorem internFields_error (owner : String) (seen : List String) : (fields : List Field) →
    ∀ a later e, (internFields expand owner seen fields).run.run a = (.error e, later) →
      (Blames owner e ∧ ¬ ((fields.map Field.name).Nodup ∧ (∀ f ∈ fields, f.name ∉ seen) ∧
        Ty.ValidEach fields)) ∨ Fails expand owner (Ty.referencesOfFields fields) e
  | [] => by
    intro a later e h
    rw [internFields] at h
    cases h
  | ⟨name, type⟩ :: rest => by
    intro a later e h
    rw [internFields] at h
    rw [Ty.referencesOfFields, Ty.ValidEach]
    split at h
    · next again =>
      cases h
      exact .inl ⟨.inr ⟨_, rfl⟩, fun valid => valid.2.1 ⟨name, type⟩ (by simp) again⟩
    · rcases run_bind_error h with ⟨b, inner⟩ | ⟨child, b, _, h⟩
      · rcases internWith_error owner none type a b e inner with fault | failed
        · exact .inl ⟨fault.1, fun valid => fault.2 valid.2.2.1⟩
        · exact .inr (failed.mono (List.subset_append_left _ _))
      · rcases run_bind_error h with ⟨c, tail⟩ | ⟨_, _, _, h⟩
        · rcases internFields_error owner (name :: seen) rest b c e tail with fault | failed
          · refine .inl ⟨fault.1, fun valid => fault.2 ?_⟩
            obtain ⟨once, unseen, _, valid⟩ := valid
            obtain ⟨new, once⟩ := List.nodup_cons.1 once
            refine ⟨once, fun f hf => ?_, valid⟩
            rw [List.mem_cons, not_or]
            exact ⟨fun same => new (List.mem_map.2 ⟨f, hf, same⟩), unseen f (List.mem_cons_of_mem _ hf)⟩
          · exact .inr (failed.mono (List.subset_append_right _ _))
        · cases h

end

/-- Why a name cannot be expanded: it leads to a name that leads back to itself, to one without a
definition, or to one whose definition is refused. -/
inductive Cause (definitions : List Definition) (target : String) : ResolveError → Prop
  | circular {path : List String} {n : String} (way : ReflTransGen (Definition.Refers definitions) target n)
      (again : n ∈ path) (chain : (path ++ [n]).IsChain (Definition.Refers definitions)) :
      Cause definitions target (.circular (path ++ [n]))
  | unknown {owner n : String} (way : ReflTransGen (Definition.Refers definitions) target n)
      (missing : ∀ d ∈ definitions, d.name ≠ n) : Cause definitions target (.unknownType owner n)
  | refused {d : Definition} {e : ResolveError} (defined : d ∈ definitions)
      (way : ReflTransGen (Definition.Refers definitions) target d.name) (blames : Blames d.name e)
      (invalid : ¬ d.body.Valid) : Cause definitions target e

theorem Cause.head {m n : String} (refers : Definition.Refers definitions m n)
    (h : Cause definitions n e) : Cause definitions m e := by
  cases h with
  | circular way again chain => exact .circular (.head refers way) again chain
  | unknown way missing => exact .unknown (.head refers way) missing
  | refused defined way blames invalid => exact .refused defined (.head refers way) blames invalid

/-- A name that cannot be expanded leads to one without a definition, to one that leads back to itself, or to an
invalid definition. -/
theorem Cause.flaw {target : String} (h : Cause definitions target e) :
    (∃ n, ReflTransGen (Definition.Refers definitions) target n ∧ n ∉ definitions.map Definition.name) ∨
      (∃ n, ReflTransGen (Definition.Refers definitions) target n ∧ TransGen (Definition.Refers definitions) n n) ∨
      ∃ d ∈ definitions, ReflTransGen (Definition.Refers definitions) target d.name ∧ ¬ d.body.Valid := by
  cases h with
  | circular way again chain => exact .inr (.inl ⟨_, way, transGen_of_again again chain⟩)
  | unknown way missing =>
    refine .inl ⟨_, way, fun there => ?_⟩
    obtain ⟨d, hd, same⟩ := List.mem_map.1 there
    exact missing d hd same
  | refused defined way _ invalid => exact .inr (.inr ⟨_, defined, way, invalid⟩)

theorem cause_of_body {d : Definition} (defined : d ∈ definitions)
    (onwards : ∀ n, Definition.Refers definitions d.name n → ∀ a later,
      (expand d.name n).run.run a = (.error e, later) → Cause definitions n e)
    (h : (internWith expand d.name shown d.body).run.run a = (.error e, later)) :
    Cause definitions d.name e := by
  rcases internWith_error d.name shown d.body a later e h with
    ⟨blames, invalid⟩ | ⟨n, hn, b, later, failed⟩
  · exact .refused defined .refl blames invalid
  · have refers : Definition.Refers definitions d.name n := ⟨d, defined, rfl, hn⟩
    exact .head refers (onwards n refers b later failed)

theorem cause_of_expand {fuel : Nat} {visiting : List String} {target : String}
    (trail : Trail (definitions.map Definition.name) (Definition.Refers definitions) visiting)
    (leads : ∀ last ∈ visiting.getLast?, Definition.Refers definitions last target)
    (deep : definitions.length < fuel + visiting.length)
    (h : (Interning.expand definitions fuel visiting owner target).run.run a = (.error e, later)) :
    Cause definitions target e := by
  induction fuel generalizing visiting owner target a later with
  | zero =>
    have short := trail.length_le
    rw [List.length_map] at short
    omega
  | succ fuel ih =>
    rw [Interning.expand] at h
    split at h
    · next again =>
      cases h
      refine .circular .refl again (List.isChain_append.2 ⟨trail.chain, List.isChain_singleton _, ?_⟩)
      simpa using leads
    · next new =>
      split at h
      · next missing =>
        cases h
        exact .unknown .refl fun d hd same => by simpa [same] using List.find?_eq_none.1 missing d hd
      · next d found =>
        have defined : d ∈ definitions := List.mem_of_find?_eq_some found
        obtain rfl : d.name = target := by simpa using List.find?_some found
        refine cause_of_body defined (fun n refers b later failed => ?_) h
        refine ih (trail.snoc leads new (List.mem_map_of_mem defined)) (by simpa using refers) ?_ failed
        rw [List.length_append, List.length_singleton]
        omega

end Faults

end Interning
end Calldata

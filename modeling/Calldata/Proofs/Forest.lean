import Mathlib.Data.Nat.Log
import Calldata.Resolver

/-!
The arena of a resolver is a forest. Every use of a type has nodes of its own, so no node has two
parents, and children come before their parents. Names of fields are distinct within a record, no
array of known length is empty, and scalars and enumerations have the widths that exist.
-/
namespace Calldata

def ElementaryKind.Width : ElementaryKind → Nat → Prop
  | .uint, n | .int, n | .byte, n => 8 ∣ n ∧ 8 ≤ n ∧ n ≤ 256
  | .bool, n => n = 8
  | .address, n => n = 160
  | .bytes, n | .string, n => n = 0

/-- What a resolver refuses is not there. -/
def NodeKind.Lawful : NodeKind → Prop
  | .elementary e => e.kind.Width e.width.toNat
  | .enumeration variants bits =>
    1 ≤ variants.length ∧ variants.length ≤ 256 ∧ variants.Nodup ∧ bits = Nat.clog 2 variants.length
  | .array _ length => length ≠ some 0
  | .record fields => (fields.map Prod.fst).Nodup
  | .function => True

theorem Elementary.width_of_isValid {e : Elementary} (h : e.isValid = true) :
    e.kind.Width e.width.toNat := by
  unfold isValid ElementaryKind.admits at h
  cases hk : e.kind with
  | uint | int | byte =>
    simp only [hk, Bool.and_eq_true, decide_eq_true_eq, beq_iff_eq] at h
    exact ⟨Nat.dvd_of_mod_eq_zero h.2, h.1⟩
  | bool | address | bytes | string =>
    simp only [hk, beq_iff_eq] at h
    simp [ElementaryKind.Width, h]

theorem enumBits_eq_clog (count : Nat) : enumBits count = Nat.clog 2 count := by
  unfold enumBits
  split
  · next small => exact (Nat.clog_of_right_le_one small 2).symm
  · next large =>
    have below : 2 ^ (count - 1).log2 ≤ count - 1 := Nat.log2_self_le (by omega)
    have above : count - 1 < 2 ^ ((count - 1).log2 + 1) := Nat.lt_log2_self
    apply Nat.le_antisymm
    · exact (Nat.lt_clog_iff_pow_lt Nat.one_lt_two).2 (by omega)
    · exact (Nat.clog_le_iff_le_pow Nat.one_lt_two).2 (by omega)

theorem nodup_of_firstRepeated {seen names : List String} (h : firstRepeated seen names = none) :
    names.Nodup ∧ ∀ name ∈ names, name ∉ seen := by
  induction names generalizing seen with
  | nil => simp
  | cons name rest ih =>
    rw [firstRepeated] at h
    split at h
    · cases h
    · next unseen =>
      obtain ⟨distinct, later⟩ := ih h
      refine ⟨List.nodup_cons.2 ⟨fun there => later name there (by simp), distinct⟩, ?_⟩
      simp only [List.mem_cons, forall_eq_or_imp]
      exact ⟨unseen, fun other there seen => later other there (by simp [seen])⟩

namespace Arena

structure Forest (a : Arena) : Prop where
  below {id c : NodeId} : c ∈ a.children id → c < id
  single {i j c : NodeId} : c ∈ a.children i → c ∈ a.children j → i = j
  once (id : NodeId) : (a.children id).Nodup
  lawful {id : NodeId} {node : Node} : a.get? id = some node → node.kind.Lawful

structure Extends (a later : Arena) : Prop where
  size_le : a.size ≤ later.size
  same {id : NodeId} : id < a.size → later.get? id = a.get? id
  fresh {id c : NodeId} : a.size ≤ id → c ∈ later.children id → a.size ≤ c

variable {a b c : Arena} {node : Node}

theorem Extends.refl (a : Arena) : a.Extends a := by
  refine ⟨Nat.le_refl _, fun _ => rfl, fun {id c} large h => ?_⟩
  have missing : a.get? id = none := Array.getElem?_eq_none large
  rw [children, missing] at h
  cases h

theorem Extends.children (h : a.Extends b) {id : NodeId} (small : id < a.size) :
    b.children id = a.children id := by
  rw [Arena.children, Arena.children, h.same small]

theorem Extends.trans (h : a.Extends b) (h' : b.Extends c) : a.Extends c where
  size_le := Nat.le_trans h.size_le h'.size_le
  same small := (h'.same (Nat.lt_of_lt_of_le small h.size_le)).trans (h.same small)
  fresh {id n} large hn := by
    by_cases old : id < b.size
    · rw [h'.children old] at hn
      exact h.fresh large hn
    · exact Nat.le_trans h.size_le (h'.fresh (Nat.le_of_not_lt old) hn)

theorem get?_push (a : Arena) (node : Node) (id : NodeId) :
    (a.push node).get? id = if id = a.size then some node else a.get? id := by
  simp only [push, get?, Array.getElem?_push, size]
  rfl

theorem children_push (a : Arena) (node : Node) (id : NodeId) :
    (a.push node).children id = if id = a.size then node.kind.children else a.children id := by
  simp only [children, get?_push]
  by_cases last : id = a.size
  · rw [if_pos last, if_pos last]
  · rw [if_neg last, if_neg last]

theorem size_push (a : Arena) (node : Node) : (a.push node).size = a.size + 1 := by
  simp [push, size]

/-- A node whose children are there and belong to no other can be added. -/
theorem Forest.push (forest : a.Forest) (below : ∀ c ∈ node.kind.children, c < a.size)
    (free : ∀ c ∈ node.kind.children, ∀ id, c ∉ a.children id) (once : node.kind.children.Nodup)
    (lawful : node.kind.Lawful) : (a.push node).Forest where
  below {id c} h := by
    rw [children_push] at h
    split at h
    · next last => exact last ▸ below c h
    · exact forest.below h
  single {i j c} hi hj := by
    rw [children_push] at hi hj
    by_cases last : i = a.size <;> by_cases last' : j = a.size
    · rw [last, last']
    · rw [if_pos last] at hi
      rw [if_neg last'] at hj
      exact absurd hj (free c hi j)
    · rw [if_neg last] at hi
      rw [if_pos last'] at hj
      exact absurd hi (free c hj i)
    · rw [if_neg last] at hi
      rw [if_neg last'] at hj
      exact forest.single hi hj
  once id := by
    rw [children_push]
    split
    · exact once
    · exact forest.once id
  lawful {id n} h := by
    rw [get?_push] at h
    split at h
    · cases h
      exact lawful
    · exact forest.lawful h

theorem extends_push (h : a.Extends b) (fresh : ∀ c ∈ node.kind.children, a.size ≤ c) :
    a.Extends (b.push node) where
  size_le := by
    have := h.size_le
    rw [size_push]
    omega
  same {id} small := by
    rw [get?_push, if_neg (Nat.ne_of_lt (Nat.lt_of_lt_of_le small h.size_le)), h.same small]
  fresh {id c} large hc := by
    rw [children_push] at hc
    split at hc
    · exact fresh c hc
    · exact h.fresh large hc

end Arena

namespace Interning

/-- A step keeps the forest, and what it returns is new as `new` says. -/
def Keeps (step : Interning α) (new : Arena → Arena → α → Prop) : Prop :=
  ∀ a : Arena, a.Forest → ∀ result later, step.run.run a = (result, later) →
    later.Forest ∧ a.Extends later ∧ ∀ v, result = .ok v → new a later v

def Root (a later : Arena) (id : NodeId) : Prop :=
  a.size ≤ id ∧ id < later.size ∧ ∀ i, id ∉ later.children i

structure Fields (seen : List String) (a later : Arena) (fields : List (String × NodeId)) : Prop where
  names : (fields.map Prod.fst).Nodup
  unseen : ∀ f ∈ fields, f.1 ∉ seen
  once : (fields.map Prod.snd).Nodup
  root : ∀ f ∈ fields, Root a later f.2

variable {α β : Type} {x : Interning α} {f : α → Interning β}

theorem run_bind (x : Interning α) (f : α → Interning β) (a : Arena) :
    (x >>= f).run.run a =
      match x.run.run a with
      | (.ok v, later) => (f v).run.run later
      | (.error e, later) => (.error e, later) := by
  change (ExceptT.bind x f).run.run a = _
  simp only [ExceptT.bind, ExceptT.run, ExceptT.mk, StateT.run, bind, StateT.bind]
  cases x a with
  | mk result later => cases result <;> rfl

theorem Keeps.throw (e : ResolveError) {new : Arena → Arena → α → Prop} :
    Keeps (throw e : Interning α) new := by
  intro a forest result later h
  cases h
  exact ⟨forest, .refl a, by simp⟩

theorem Keeps.bind {P : Arena → Arena → α → Prop} {Q : Arena → Arena → β → Prop} (hx : Keeps x P)
    (hf : ∀ a b v, b.Forest → a.Extends b → P a b v → ∀ result later, (f v).run.run b = (result, later) →
      later.Forest ∧ a.Extends later ∧ ∀ w, result = .ok w → Q a later w) : Keeps (x >>= f) Q := by
  intro a forest result later h
  rw [run_bind] at h
  obtain ⟨first, b, hb⟩ : ∃ first b, x.run.run a = (first, b) := ⟨_, _, rfl⟩
  obtain ⟨forest', longer, new⟩ := hx a forest first b hb
  rw [hb] at h
  cases first with
  | ok v => exact hf a b v forest' longer (new v rfl) result later h
  | error e =>
    cases h
    exact ⟨forest', longer, by simp⟩

/-- A node that is added last is a root, if its children are new roots. -/
theorem push_root {a b later : Arena} {name : String} {kind : NodeKind} {result : Except ResolveError NodeId}
    (forest : b.Forest) (longer : a.Extends b) (roots : ∀ c ∈ kind.children, Root a b c)
    (once : kind.children.Nodup) (lawful : kind.Lawful)
    (h : (push name kind).run.run b = (result, later)) :
    later.Forest ∧ a.Extends later ∧ ∀ w, result = .ok w → Root a later w := by
  cases h
  refine ⟨forest.push (fun c hc => (roots c hc).2.1) (fun c hc => (roots c hc).2.2) once lawful,
    Arena.extends_push longer fun c hc => (roots c hc).1, ?_⟩
  rintro _ ⟨⟩
  refine ⟨longer.size_le, ?_, fun i there => ?_⟩
  · rw [Arena.size_push]
    exact Nat.lt_succ_self _
  · rw [Arena.children_push] at there
    split at there
    · exact Nat.lt_irrefl _ (roots _ there).2.1
    · next other =>
      have node := forest.below there
      have missing : b.get? i = none := Array.getElem?_eq_none (Nat.le_of_lt node)
      rw [Arena.children, missing] at there
      cases there

theorem keeps_push {name : String} {kind : NodeKind} (leaf : kind.children = [])
    (lawful : kind.Lawful) : Keeps (push name kind) Root := by
  intro a forest result later h
  exact push_root forest (.refl a) (by simp [leaf]) (by simp [leaf]) lawful h

theorem Root.later {a b c : Arena} {id : NodeId} (h : Root a b id) (longer : b.Extends c) :
    Root a c id := by
  refine ⟨h.1, Nat.lt_of_lt_of_le h.2.1 longer.size_le, fun i there => ?_⟩
  by_cases old : i < b.size
  · rw [longer.children old] at there
    exact h.2.2 i there
  · exact absurd (longer.fresh (Nat.le_of_not_lt old) there) (Nat.not_le_of_lt h.2.1)

mutual

theorem keeps_internWith {expand : String → String → Interning NodeId}
    (he : ∀ owner name, Keeps (expand owner name) Root) (owner : String) (shown : Option String) :
    (t : Ty) → Keeps (internWith expand owner shown t) Root
  | .elementary e => by
    rw [internWith]
    split
    · next valid => exact keeps_push rfl (Elementary.width_of_isValid valid)
    · exact .throw _
  | .enumeration variants => by
    rw [internWith]
    split
    · exact .throw _
    · next counted =>
      split
      · exact .throw _
      · next distinct =>
        exact keeps_push rfl ⟨by omega, by omega, (nodup_of_firstRepeated distinct).1, enumBits_eq_clog _⟩
  | .array element length => by
    rw [internWith]
    split
    · exact .throw _
    · next filled =>
      refine (keeps_internWith he owner none element).bind fun a b id forest longer root result later h => ?_
      rw [run_bind] at h
      refine @push_root a b later _ (.array id length) result forest longer ?_
        (by simp [NodeKind.children]) filled h
      simpa [NodeKind.children] using root
  | .record fields => by
    rw [internWith]
    refine (keeps_internFields he owner [] fields).bind fun a b fields forest longer new result later h => ?_
    refine @push_root a b later _ (.record fields) result forest longer ?_ new.once new.names h
    intro c hc
    obtain ⟨f, hf, rfl⟩ := List.mem_map.1 hc
    exact new.root f hf
  | .function => by
    rw [internWith]
    exact keeps_push rfl trivial
  | .reference name => by
    rw [internWith]
    exact he owner name

theorem keeps_internFields {expand : String → String → Interning NodeId}
    (he : ∀ owner name, Keeps (expand owner name) Root) (owner : String) (seen : List String) :
    (fields : List Field) → Keeps (internFields expand owner seen fields) (Fields seen)
  | [] => by
    rw [internFields]
    intro a forest result later h
    cases h
    refine ⟨forest, .refl a, ?_⟩
    rintro _ ⟨⟩
    exact ⟨by simp, by simp, by simp, by simp⟩
  | ⟨name, type⟩ :: rest => by
    rw [internFields]
    split
    · exact .throw _
    · next unseen =>
      refine (keeps_internWith he owner none type).bind fun a b id forest longer root result later h => ?_
      have tail : Keeps (do return (name, id) :: (← internFields expand owner (name :: seen) rest))
          fun b later fields => ∃ others, fields = (name, id) :: others ∧
            Fields (name :: seen) b later others := by
        refine (keeps_internFields he owner (name :: seen) rest).bind
          fun a b others forest longer new result later h => ?_
        cases h
        refine ⟨forest, longer, ?_⟩
        rintro _ ⟨⟩
        exact ⟨others, rfl, new⟩
      obtain ⟨forest', longer', new⟩ := tail b forest result later h
      refine ⟨forest', longer.trans longer', fun w hw => ?_⟩
      obtain ⟨others, rfl, fields⟩ := new w hw
      have apart : ∀ f ∈ others, f.1 ≠ name ∧ f.2 ≠ id := fun f hf =>
        ⟨fun eq => fields.unseen f hf (by simp [eq]),
          fun eq => absurd (fields.root f hf).1 (Nat.not_le_of_lt (eq ▸ root.2.1))⟩
      refine ⟨?_, ?_, ?_, ?_⟩
      · rw [List.map_cons, List.nodup_cons]
        refine ⟨fun there => ?_, fields.names⟩
        obtain ⟨f, hf, eq⟩ := List.mem_map.1 there
        exact (apart f hf).1 eq
      · simp only [List.mem_cons, forall_eq_or_imp]
        exact ⟨unseen, fun f hf there => fields.unseen f hf (List.mem_cons_of_mem _ there)⟩
      · rw [List.map_cons, List.nodup_cons]
        refine ⟨fun there => ?_, fields.once⟩
        obtain ⟨f, hf, eq⟩ := List.mem_map.1 there
        exact (apart f hf).2 eq
      · simp only [List.mem_cons, forall_eq_or_imp]
        refine ⟨root.later longer', fun f hf => ?_⟩
        obtain ⟨large, small, free⟩ := fields.root f hf
        exact ⟨Nat.le_trans longer.size_le large, small, free⟩

end

theorem keeps_expand (definitions : List Definition) (fuel : Nat) (visiting : List String)
    (owner target : String) : Keeps (expand definitions fuel visiting owner target) Root := by
  induction fuel generalizing visiting owner target with
  | zero => exact .throw _
  | succ fuel ih =>
    rw [expand]
    split
    · exact .throw _
    · split
      · exact .throw _
      · exact keeps_internWith (ih _) _ _ _

end Interning

namespace Resolver

inductive Reachable : Resolver → Prop
  | empty : Reachable empty
  | add {r r' : Resolver} (earlier : Reachable r) {d : Definition} (h : r.add d = .ok r') : Reachable r'
  | resolveAll {r : Resolver} (earlier : Reachable r) : Reachable r.resolveAll.2
  | resolveParams {r : Resolver} (earlier : Reachable r) (name : String) (params : List Field) :
      Reachable (r.resolveParams name params).2

theorem forest_intern {r : Resolver} (forest : r.arena.Forest) (visiting : List String) (name : String)
    (body : Ty) : (r.intern visiting name body).2.arena.Forest :=
  (Interning.keeps_internWith (Interning.keeps_expand _ _ _) name (some name) body _ forest _ _ rfl).1

theorem forest_resolveList {r : Resolver} (forest : r.arena.Forest) (names : List String) :
    (resolveList names r).2.arena.Forest := by
  induction names generalizing r with
  | nil => exact forest
  | cons name rest ih =>
    rw [resolveList]
    split
    · next d _ _ =>
      have interned := forest_intern forest [name] name d.body
      split
      · next r' eq =>
        rw [eq] at interned
        exact interned
      · next id r' eq =>
        rw [eq] at interned
        exact @ih { r' with roots := _, order := _ } interned
    · exact ih forest

theorem Reachable.forest {r : Resolver} (h : Reachable r) : r.arena.Forest := by
  induction h with
  | empty =>
    refine ⟨?_, ?_, ?_, ?_⟩ <;> simp [Resolver.empty, Arena.empty, Arena.children, Arena.get?]
  | @add r r' _ d h ih =>
    rw [Resolver.add] at h
    split at h
    · cases h
    · cases h
      exact ih
  | @resolveAll r _ ih =>
    rw [Resolver.resolveAll]
    split
    · exact ih
    · exact forest_resolveList ih _
  | resolveParams _ name params ih => exact forest_intern ih [] name (.record params)

end Resolver
end Calldata

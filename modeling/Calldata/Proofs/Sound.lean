import Calldata.Proofs.Act
import Calldata.Proofs.Firm

/-!
What it means that a plan decodes a part. On every wire, the loops of the plan leave values at which
its sizes are those of the decoded value; everything it writes is in the image of that value and
covers it; its short copies write only words; its checks hold exactly where the encoding is
canonical; and no term lacks a value where the encoding is canonical or offsets are not followed. Sizes in a plan stop at the largest
word, so all this is claimed only of values that are smaller than that, or of runs that write below
it.
-/
namespace Calldata

/-- The largest word: where literals stop. -/
def Term.top : Int := 2 ^ 63 - 1

/-- What holds of acts that stay below the largest word holds of some of them. -/
theorem Act.fits_of_fits {small : Prop} {u : Wire} {xs : List Act} (ys : List Act)
    (fits : small ∨ ∃ bound < Term.top, ∀ a ∈ xs, a.Within u bound)
    (sub : ∀ bound : Int, (∀ a ∈ xs, a.Within u bound) → ∀ a ∈ ys, a.Within u bound) :
    small ∨ ∃ bound < Term.top, ∀ a ∈ ys, a.Within u bound := by
  rcases fits with h | ⟨bound, low, within⟩
  · exact .inl h
  · exact .inr ⟨bound, low, sub bound within⟩

namespace Plan

def last (p : Plan) (u : Wire) (v : Values) : Values := (Tracer.loops u p.loops v).1

def inner (p : Plan) (u : Wire) (v : Values) : List Act :=
  (Tracer.loops u p.loops v).2.flatMap Event.acts

def level (p : Plan) (v : Values) : List Act :=
  p.checks.map (.check · v) ++ (p.copies.map (.copy · v) ++ p.pointers.map (.point · v))

def acts (p : Plan) (u : Wire) (v : Values) : List Act := p.inner u v ++ p.level (p.last u v)

def names (p : Plan) : List String :=
  (p.level fun _ => none).flatMap Act.mentions ++
    (p.memorySize.occurrences ++ (p.calldataSize.map Term.occurrences).getD [])

/-- The names of the length words of the arrays that the plan loops over. -/
def lengths (p : Plan) (name : String) : Prop :=
  ∃ scope, scope ++ ".index" ∈ p.bound ∧ name = scope ++ ".length"

/-- The value is not too large, or nothing is written too far. -/
def Fits (p : Plan) (v : Values) (u : Wire) (value : Value) : Prop :=
  (value.size : Int) < Term.top ∨ ∃ bound < Term.top, ∀ a ∈ p.acts u v, a.Within u bound

structure Decodes (strict : Bool) (p : Plan) (v : Values) (u : Wire) (address : Int)
    (value : Value) : Prop where
  size : p.memorySize.read (p.last u v) u = value.size
  extent : ∀ t, p.calldataSize = some t → t.read (p.last u v) u = value.extent
  good : ∀ a ∈ p.acts u v, a.Good u address (value.image address)
  covers : ∀ i : Nat, i < value.size → ∃ a ∈ p.acts u v, a.Touches u i
  spares : ∀ a ∈ p.acts u v, a.Spares p.lengths u value.Firm
  agrees : (∀ a ∈ p.acts u v, a.Agrees u) ↔ (strict = true → u.Matches value.cells)
  ready : (strict = true ∨ u.Matches value.cells) → value.size < 2 ^ 63 →
    (∀ a ∈ p.acts u v, a.Ready u value.extent value.size) ∧
      p.memorySize.Ready (p.last u v) u value.extent ∧
        ∀ t, p.calldataSize = some t → t.Ready (p.last u v) u value.extent

structure Sound (strict : Bool) (p : Plan) (part : Part) : Prop where
  plain : p.Plain
  closed : ∀ n ∈ p.names, n ∈ cursorNames p.loops
  measured : strict = true → p.calldataSize ≠ none
  /-- With zeros everywhere, the body does not end behind everything that is written. -/
  written : ∀ bound : Int, 0 ≤ bound →
    (∀ c ∈ p.copies, c.dst.sample 0 + c.size.sample 0 ≤ bound) →
    (∀ q ∈ p.pointers, q.dst.sample 0 + 32 ≤ bound) → p.memorySize.sample 0 ≤ bound
  /-- Memory has room for what stands in place in calldata. -/
  floor : part.isDynamic = false → min (part.headSize : Int) Term.top ≤ p.memorySize.sample 0
  decodes : ∀ (v : Values) (u : Wire) (address : Int), v.Nonneg → 0 ≤ address →
    p.Fits v u (part.decode u) → p.Decodes strict v u address (part.decode u)

theorem Decodes.size_le {strict : Bool} {p : Plan} {v : Values} {u : Wire} {address : Int} {value : Value}
    {room : Nat} (h : p.Decodes strict v u address value) (within : ∀ a ∈ p.acts u v, a.Within u room) :
    value.size ≤ room := by
  by_contra larger
  obtain ⟨a, ha, touches⟩ := h.covers room (by omega)
  exact Int.lt_irrefl _ (touches.lt (within a ha))

end Plan

theorem Event.acts_rebased (b : Base) (e : Event) :
    (e.rebased b).acts = e.acts.map (Act.rebased b) := by
  cases e <;> simp [rebased, acts, Act.rebased, Function.comp_def]

theorem Event.values_of_mem_acts {e : Event} {a : Act} (h : a ∈ e.acts) : a.values = e.values := by
  cases e <;> simp [acts] at h
  case checks => obtain ⟨c, _, rfl⟩ := h; rfl
  case count => subst h; rfl
  case read => subst h; rfl
  case move => subst h; rfl
  case block =>
    rcases h with ⟨c, _, rfl⟩ | ⟨p, _, rfl⟩ <;> rfl

namespace Tracer

theorem andThen_assoc (f g h : Tracer) : (f.andThen g).andThen h = f.andThen (g.andThen h) := by
  funext v
  simp [andThen]

theorem loops_append (w : Wire) (l l' : List Loop) :
    loops w (l ++ l') = (loops w l).andThen (loops w l') := by
  induction l with
  | nil =>
    funext v
    simp [loops, done, andThen]
  | cons loop rest ih =>
    obtain ⟨_, index, count, cursors, body⟩ := loop
    rw [List.cons_append, loops, loops, ih, andThen_assoc]

end Tracer

namespace Plan
variable {p : Plan} {u : Wire} {v : Values}

theorem values_of_mem_level {a : Act} {w : Values} (h : a ∈ p.level w) : a.values = w := by
  simp only [level, List.mem_append, List.mem_map] at h
  rcases h with ⟨c, _, rfl⟩ | ⟨c, _, rfl⟩ | ⟨c, _, rfl⟩ <;> rfl

theorem check_mem_level {c : Check} (h : c ∈ p.checks) (w : Values) : .check c w ∈ p.level w :=
  List.mem_append_left _ (List.mem_map_of_mem h)

theorem copy_mem_level {c : Copy} (h : c ∈ p.copies) (w : Values) : .copy c w ∈ p.level w :=
  List.mem_append_right _ (List.mem_append_left _ (List.mem_map_of_mem h))

theorem point_mem_level {q : Pointer} (h : q ∈ p.pointers) (w : Values) : .point q w ∈ p.level w :=
  List.mem_append_right _ (List.mem_append_right _ (List.mem_map_of_mem h))

theorem level_at (p : Plan) (w w' : Values) : p.level w' = (p.level w).map (Act.at_ w') := by
  simp [level, Act.at_, Function.comp_def]

theorem mentions_of_mem_level {a : Act} {w : Values} (h : a ∈ p.level w) :
    ∀ n ∈ a.mentions, n ∈ p.names := by
  intro n hn
  have moved : a.at_ (fun _ => none) ∈ p.level fun _ => none := by
    rw [level_at p w]
    exact List.mem_map_of_mem h
  have same : (a.at_ fun _ => none).mentions = a.mentions := by cases a <;> rfl
  exact List.mem_append_left _ (List.mem_flatMap.2 ⟨_, moved, same ▸ hn⟩)

theorem mem_names_memorySize {n : String} (h : n ∈ p.memorySize.occurrences) : n ∈ p.names :=
  List.mem_append_right _ (List.mem_append_left _ h)

theorem mem_names_calldataSize {n : String} {t : Term} (ht : p.calldataSize = some t)
    (h : n ∈ t.occurrences) : n ∈ p.names := by
  refine List.mem_append_right _ (List.mem_append_right _ ?_)
  rwa [ht]

theorem last_keeps {n : String} (h : n ∉ p.bound) : p.last u v n = v n :=
  (Tracer.keeps_loops u p.loops v).1 n (by rwa [← mem_bound])

theorem acts_keep {n : String} (h : n ∉ p.bound) {a : Act} (ha : a ∈ p.acts u v) :
    a.values n = v n := by
  rcases List.mem_append.1 ha with ha | ha
  · obtain ⟨e, he, ha⟩ := List.mem_flatMap.1 ha
    rw [Event.values_of_mem_acts ha]
    exact (Tracer.keeps_loops u p.loops v).2 e he n (by rwa [← mem_bound])
  · rw [values_of_mem_level ha]
    exact last_keeps h

theorem nonneg_last (plain : p.Plain) (hv : v.Nonneg) : (p.last u v).Nonneg := by
  cases p
  exact Tracer.nonneg_loops _ plain.2.2.1 hv

section Rebased
variable (p : Plan) (c m : Term)

theorem rebased_pointers : (p.rebased c m).pointers = p.pointers.map (Base.pointer ⟨c, m⟩) := by
  cases p; simp [rebased, Base.plan]

theorem rebased_copies : (p.rebased c m).copies = p.copies.map (Base.copy ⟨c, m⟩) := by
  cases p; simp [rebased, Base.plan]

theorem rebased_loops : (p.rebased c m).loops = Base.loops ⟨c, m⟩ p.loops := by
  cases p; simp [rebased, Base.plan]

theorem rebased_checks : (p.rebased c m).checks = p.checks.map (Base.check ⟨c, m⟩) := by
  cases p; simp [rebased, Base.plan]

theorem rebased_memorySize : (p.rebased c m).memorySize = Base.amount ⟨c, m⟩ p.memorySize := by
  cases p; simp [rebased, Base.plan]

theorem rebased_calldataSize :
    (p.rebased c m).calldataSize = p.calldataSize.map (Base.amount ⟨c, m⟩) := by
  cases p; simp [rebased, Base.plan]

end Rebased

/-- The acts of a moved plan are the moved acts. -/
theorem acts_rebased {c m : Term} {start : Int} (plain : p.Plain)
    (other : ∀ n ∈ p.bound, n ∉ c.occurrences) (place : c.read v u = start) :
    (p.rebased c m).last u v = p.last (u.drop start) v ∧
      (p.rebased c m).acts u v = (p.acts (u.drop start) v).map (Act.rebased ⟨c, m⟩) := by
  have plainLoops : PlainLoops p.loops := by
    cases p
    exact plain.2.2.1
  have moved := (Tracer.moved_loops (b := ⟨c, m⟩) p.loops (fun _ => plainLoops)
    (fun n hn => other n (mem_bound.2 hn))).eq place
  have last_eq : (p.rebased c m).last u v = p.last (u.drop start) v := by
    rw [last, last, rebased_loops, moved]
  refine ⟨last_eq, ?_⟩
  have inner_eq : (p.rebased c m).inner u v =
      (p.inner (u.drop start) v).map (Act.rebased ⟨c, m⟩) := by
    rw [inner, inner, rebased_loops, moved, List.map_flatMap, List.flatMap_map]
    simp only [Event.acts_rebased]
  rw [acts, acts, List.map_append, inner_eq, last_eq]
  simp [level, rebased_checks, rebased_copies, rebased_pointers, Act.rebased, Function.comp_def]

end Plan
end Calldata

import Calldata.Proofs.Wire

/-!
The trace of a run. A plan is followed over the integers, where nothing can fail, and everything
that could fail on the way is noted as an event together with the values of the names at that
moment. A run does what its trace says up to the first event that is not all right, and fails there.
-/
namespace Calldata

abbrev Values := String → Option Int

namespace Values

def set (v : Values) (name : String) (x : Int) : Values := fun n => if n = name then some x else v n

def env (v : Values) (w : Wire) : Env where
  var n := (v n).bind checked
  load a := if 0 ≤ a.toInt then checked (w.word a.toInt) else none

end Values

/-- The value of a term over the integers; names without a value count as zero. -/
def Term.read (v : Values) (w : Wire) (t : Term) : Int := t.denote (fun n => (v n).getD 0) w.word

namespace Term
variable {v : Values} {w : Wire}

theorem read_literal (c : Int64) : (literal c).read v w = c.toInt := rfl

theorem read_var (n : String) : (var n).read v w = (v n).getD 0 := rfl

theorem read_load (a : Term) : (load a).read v w = w.word (a.read v w) := rfl

theorem read_add (l r : Term) : (l + r).read v w = l.read v w + r.read v w := denote_add l r

theorem read_mul (l r : Term) : (l * r).read v w = l.read v w * r.read v w := denote_mul l r

end Term

theorem Term.read_of_eval {v : Values} {w : Wire} {t : Term} {x : Int64}
    (h : t.eval (v.env w) = some x) : t.read v w = x.toInt := by
  refine t.denote_of_eval ?_ ?_ h
  · intro n x hx
    obtain ⟨y, hy, hx⟩ := Option.bind_eq_some_iff.1 hx
    rw [hy, Option.getD_some, checked_eq_some_iff.1 hx]
  · intro a x hx
    simp only [Values.env] at hx
    split at hx
    · exact (checked_eq_some_iff.1 hx).symm
    · cases hx

/-- What a run does at one moment, with the values of names at that moment. -/
inductive Event where
  | checks (checks : List Check) (values : Values)
  /-- A number of rounds is read. -/
  | count (count : Term) (values : Values)
  | read (term : Term) (values : Values)
  | move (name : String) (step : Int) (values : Values)
  /-- The copies of a level, and then its pointers. -/
  | block (copies : List Copy) (pointers : List Pointer) (values : Values)

/-- The last values, and what happened on the way to them. -/
abbrev Tracer := Values → Values × List Event

namespace Tracer

def done : Tracer := fun v => (v, [])

def andThen (f g : Tracer) : Tracer := fun v => ((g (f v).1).1, (f v).2 ++ (g (f v).1).2)

def note (event : Values → Event) : Tracer := fun v => (v, [event v])

def start (w : Wire) : List Cursor → Tracer
  | [] => done
  | c :: rest => andThen (fun v => (v.set c.name (c.init.read v w), [.read c.init v])) (start w rest)

def moves : List (String × Int) → Tracer
  | [] => done
  | (name, step) :: rest =>
    andThen (fun v => (v.set name ((v name).getD 0 + step), [.move name step v])) (moves rest)

def advance (w : Wire) (cursors : List Cursor) : Tracer := fun v =>
  let moved := moves (cursors.map fun c => (c.name, c.step.read v w)) v
  (moved.1, cursors.map (fun c => .read c.step v) ++ moved.2)

def rounds (round : Nat → Tracer) : Nat → Nat → Tracer
  | 0, _ => done
  | count + 1, index => andThen (round index) (rounds round count (index + 1))

mutual

def plan (w : Wire) : Plan → Tracer
  | ⟨pointers, copies, planLoops, checks, _, _⟩ =>
    let split := checks.partition (Machine.mentions (Plan.cursorNames planLoops))
    andThen (note (.checks split.2)) (andThen (loops w planLoops)
      (andThen (note (.checks split.1)) (note (.block copies pointers))))

def loops (w : Wire) : List Loop → Tracer
  | [] => done
  | ⟨_, index, count, cursors, body⟩ :: rest =>
    andThen (fun v => andThen (note (.count count)) (andThen (start w cursors)
      (rounds (fun i => andThen (fun v => plan w body (v.set index i)) (advance w cursors))
        (count.read v w).toNat 0)) v) (loops w rest)

end
end Tracer

def Copy.write (c : Copy) (v : Values) (w : Wire) (memory : Memory) : Memory :=
  memory.patched (c.dst.read v w) (c.size.read v w) (w.drop (c.src.read v w))

def Pointer.write (p : Pointer) (v : Values) (w : Wire) (memory : Memory) : Memory :=
  memory.patched (p.dst.read v w) 32 (Wire.digits (p.value.read v w).toNat)

def Event.effect (w : Wire) (memory : Memory) : Event → Memory
  | .block copies pointers v =>
    pointers.foldl (fun memory p => p.write v w memory)
      (copies.foldl (fun memory c => c.write v w memory) memory)
  | _ => memory

namespace Machine

def wire (m : Machine) : Wire := Wire.ofBytes m.calldata

def Copies (m : Machine) (v : Values) (c : Copy) : Prop :=
  ∃ dst src size : Int64, c.dst.eval (v.env m.wire) = some dst ∧ c.src.eval (v.env m.wire) = some src ∧
    c.size.eval (v.env m.wire) = some size ∧ 0 ≤ dst.toInt ∧ 0 ≤ src.toInt ∧ 0 ≤ size.toInt ∧
      dst.toInt + size.toInt ≤ m.limit

def Points (m : Machine) (v : Values) (p : Pointer) : Prop :=
  ∃ dst value : Int64, p.dst.eval (v.env m.wire) = some dst ∧
    p.value.eval (v.env m.wire) = some value ∧ 0 ≤ dst.toInt ∧ 0 ≤ value.toInt ∧
      dst.toInt + 32 ≤ m.limit

def Passes (m : Machine) (v : Values) (c : Check) : Prop :=
  ∃ x : Int64, c.actual.eval (v.env m.wire) = some x ∧ c.expected.eval (v.env m.wire) = some x

/-- Nothing goes wrong at this moment. -/
def Allows (m : Machine) : Event → Prop
  | .checks checks v => ∀ c ∈ checks, m.Passes v c
  | .count t v => ∃ x : Int64, t.eval (v.env m.wire) = some x ∧ 0 ≤ x.toInt ∧
      capped (x.toInt.toNat * wordSize) ≤ m.limit
  | .read t v => ∃ x : Int64, t.eval (v.env m.wire) = some x
  | .move name step v => ∃ x y : Int64, v name = some x.toInt ∧ y.toInt = x.toInt + step
  | .block copies pointers v => (∀ c ∈ copies, m.Copies v c) ∧ ∀ p ∈ pointers, m.Points v p

end Machine

/-- Canonical encoding was asked for and not found. -/
def RunError.isRefusal : RunError → Bool
  | .invalidEncoding _ => true
  | _ => false

def Bindings.values (b : Bindings) : Values := fun n => (b.get? n).map Int64.toInt

theorem lookup_cons_eq (n k : String) (x : Int64) (rest : List (String × Int64)) :
    ((k, x) :: rest).lookup n = if n = k then some x else rest.lookup n := by
  by_cases h : n = k
  · simp [h]
  · rw [List.lookup_cons, beq_eq_false_iff_ne.2 h, if_neg h]

theorem Bindings.get?_setIn (name n : String) (x : Int64) (entries : List (String × Int64)) :
    (setIn name x entries).lookup n = if n = name then some x else entries.lookup n := by
  induction entries with
  | nil => simp [setIn, lookup_cons_eq]
  | cons entry rest ih =>
    obtain ⟨other, old⟩ := entry
    by_cases ho : other = name <;> by_cases h : n = name <;> by_cases hn : n = other <;>
      simp_all [setIn, lookup_cons_eq]

theorem Bindings.values_set (b : Bindings) (name : String) (x : Int64) :
    (b.set name x).values = b.values.set name x.toInt := by
  funext n
  simp only [values, get?, set, get?_setIn, Values.set]
  split <;> rfl

namespace Machine

/-- What an event raises when it is not all right. A check refuses or fails as it does in the run;
no other event refuses. -/
def Raises (m : Machine) (error : RunError) : Event → Prop
  | .checks checks v => ∃ b : Bindings, b.values = v ∧ m.check b checks = .error error
  | _ => error.isRefusal = false

/-- `result` is what comes of the events: the first that is not all right raises an error, and
without one the last state is as expected. -/
def Yields (m : Machine) (result : Except RunError RunState) (expected : RunState → Prop) :
    List Event → Prop
  | [] => ∃ s, result = .ok s ∧ expected s
  | event :: rest =>
    (m.Allows event → m.Yields result expected rest) ∧
      (¬ m.Allows event → ∃ e, result = .error e ∧ m.Raises e event)

theorem Yields.bind {m : Machine} {result : Except RunError RunState} {expected : RunState → Prop}
    {next : RunState → Except RunError RunState} {first second : List Event}
    (h : m.Yields result (fun s => m.Yields (next s) expected second) first) :
    m.Yields (result >>= next) expected (first ++ second) := by
  induction first with
  | nil =>
    obtain ⟨s, rfl, hs⟩ := h
    exact hs
  | cons event rest ih =>
    refine ⟨fun good => ih (h.1 good), fun bad => ?_⟩
    obtain ⟨e, rfl, raised⟩ := h.2 bad
    exact ⟨e, rfl, raised⟩

theorem Yields.weaken {m : Machine} {result : Except RunError RunState}
    {expected wanted : RunState → Prop} {events : List Event} (h : m.Yields result expected events)
    (weaker : ∀ s, expected s → wanted s) : m.Yields result wanted events := by
  induction events with
  | nil =>
    obtain ⟨s, hr, hs⟩ := h
    exact ⟨s, hr, weaker s hs⟩
  | cons event rest ih => exact ⟨fun good => ih (h.1 good), h.2⟩

theorem Yields.allows {m : Machine} {result : Except RunError RunState}
    {expected : RunState → Prop} {events : List Event} (h : m.Yields result expected events)
    {s : RunState} (ended : result = .ok s) : (∀ e ∈ events, m.Allows e) ∧ expected s := by
  induction events with
  | nil =>
    obtain ⟨s', hr, hs⟩ := h
    rw [ended] at hr
    cases hr
    exact ⟨by simp, hs⟩
  | cons event rest ih =>
    by_cases good : m.Allows event
    · have later := ih (h.1 good)
      exact ⟨by simpa using ⟨good, later.1⟩, later.2⟩
    · obtain ⟨e, failed, _⟩ := h.2 good
      rw [ended] at failed
      cases failed

theorem Yields.ends {m : Machine} {result : Except RunError RunState}
    {expected : RunState → Prop} {events : List Event} (h : m.Yields result expected events)
    (good : ∀ e ∈ events, m.Allows e) : ∃ s, result = .ok s ∧ expected s := by
  induction events with
  | nil => exact h
  | cons event rest ih =>
    exact ih (h.1 (good event (by simp))) fun e he => good e (by simp [he])

end Machine
end Calldata

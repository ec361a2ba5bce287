import Calldata.Proofs.Trace
import Calldata.Proofs.Traversal
import Calldata.Proofs.WordReading

/-!
A run follows its trace. Each part of a run is matched with its tracer; the parts are then put
together as the plan is, by recursion on its loops.
-/
namespace Calldata

namespace Machine
variable {m : Machine} {b : Bindings}

theorem word?_toNat (m : Machine) {x : Int64} (h : 0 ≤ x.toInt) :
    m.word? x.toInt.toNat = checked (m.wire.word x.toInt) := by
  have := x.toInt_lt
  rw [word?_eq (.inr (by omega)), Int.toNat_of_nonneg h]
  rfl

/-- Evaluation in the run: the value of the term, or an error that refuses nothing. -/
theorem value_eq (m : Machine) (b : Bindings) (t : Term) :
    (∀ x, t.eval (b.values.env m.wire) = some x → m.value b t = .ok x) ∧
      (t.eval (b.values.env m.wire) = none → ∃ e, m.value b t = .error e ∧ e.isRefusal = false) := by
  induction t with
  | literal v => simp [Term.eval, value]
  | var n =>
    have found : (b.values.env m.wire).var n = b.get? n := by
      cases h : b.get? n <;> simp [Values.env, Bindings.values, h]
    simp only [Term.eval, found, value, bound]
    cases b.get? n <;> simp [RunError.isRefusal]
  | load a ih =>
    cases ha : a.eval (b.values.env m.wire) with
    | none =>
      obtain ⟨e, he, plain⟩ := ih.2 ha
      simp [Term.eval, ha, value, he, bind, Except.bind, plain]
    | some x =>
      simp only [Term.eval, ha, value, ih.1 x ha, bind, Except.bind, Option.bind, nonNegative]
      by_cases hx : 0 ≤ x.toInt
      · simp only [Values.env, if_pos hx, word?_toNat m hx]
        cases checked (m.wire.word x.toInt) <;> simp [RunError.isRefusal]
      · simp [Values.env, if_neg hx, RunError.isRefusal]
  | binary op l r ihl ihr =>
    cases hl : l.eval (b.values.env m.wire) with
    | none =>
      obtain ⟨e, he, plain⟩ := ihl.2 hl
      simp [Term.eval, hl, value, he, bind, Except.bind, plain]
    | some x =>
      cases hr : r.eval (b.values.env m.wire) with
      | none =>
        obtain ⟨e, he, plain⟩ := ihr.2 hr
        simp [Term.eval, hl, hr, value, ihl.1 x hl, he, bind, Except.bind, plain]
      | some y =>
        simp only [Term.eval, hl, hr, value, ihl.1 x hl, ihr.1 y hr, bind, Except.bind, Option.bind]
        cases op.apply x y <;> simp [RunError.isRefusal]

theorem value_ok_iff {t : Term} {x : Int64} :
    m.value b t = .ok x ↔ t.eval (b.values.env m.wire) = some x := by
  constructor
  · intro h
    cases he : t.eval (b.values.env m.wire) with
    | some y =>
      rw [(value_eq m b t).1 y he] at h
      cases h
      rfl
    | none =>
      obtain ⟨e, failed, _⟩ := (value_eq m b t).2 he
      rw [failed] at h
      cases h
  · exact (value_eq m b t).1 x

theorem not_refusal_of_value {t : Term} {e : RunError} (h : m.value b t = .error e) :
    e.isRefusal = false := by
  cases he : t.eval (b.values.env m.wire) with
  | some y =>
    rw [(value_eq m b t).1 y he] at h
    cases h
  | none =>
    obtain ⟨e', failed, plain⟩ := (value_eq m b t).2 he
    rw [failed] at h
    cases h
    exact plain

theorem passes_ok_true_iff {c : Check} : m.passes b c = .ok true ↔ m.Passes b.values c := by
  simp only [Passes, ← value_ok_iff (m := m)]
  unfold passes
  cases ha : m.value b c.actual with
  | ok x =>
    cases he : m.value b c.expected with
    | ok y => simp [bind, Except.bind, pure, Except.pure, eq_comm (a := x)]
    | error e => simp [bind, Except.bind]
  | error e =>
    cases e <;> cases he : m.value b c.expected <;> simp [bind, Except.bind, pure, Except.pure]

theorem check_ok_iff {checks : List Check} :
    m.check b checks = .ok () ↔ ∀ c ∈ checks, m.Passes b.values c := by
  have passed (c : Check) :
      (do return !(← m.passes b c) : Except RunError Bool) = .ok false ↔ m.Passes b.values c := by
    rw [← passes_ok_true_iff]
    cases m.passes b c <;> simp [bind, Except.bind, pure, Except.pure]
  simp only [← passed, ← filterM_nil_iff]
  unfold check
  cases checks.filterM (fun c => do return !(← m.passes b c)) with
  | error e => simp [bind, Except.bind]
  | ok failed => cases failed <;> simp [bind, Except.bind]

theorem address_ok_iff {t : Term} {n : Nat} :
    m.address b t = .ok n ↔ ∃ x, t.eval (b.values.env m.wire) = some x ∧ 0 ≤ x.toInt ∧
      n = x.toInt.toNat := by
  unfold address nonNegative
  cases h : m.value b t with
  | ok x =>
    rw [value_ok_iff] at h
    by_cases hx : 0 ≤ x.toInt <;> simp [bind, Except.bind, h, hx, eq_comm]
  | error e =>
    have no_value (x) : t.eval (b.values.env m.wire) ≠ some x := by
      intro found
      rw [← value_ok_iff, h] at found
      cases found
    simp [bind, Except.bind, no_value]

theorem not_refusal_of_address {t : Term} {e : RunError} (h : m.address b t = .error e) :
    e.isRefusal = false := by
  unfold address nonNegative at h
  cases hv : m.value b t with
  | ok x =>
    simp only [hv, bind, Except.bind] at h
    split at h
    · cases h
    · cases h
      rfl
  | error e' =>
    simp only [hv, bind, Except.bind] at h
    cases h
    exact not_refusal_of_value hv

def Shows (v : Values) (memory : Memory) (s : RunState) : Prop :=
  s.bindings.values = v ∧ Memory.ofBytes s.memory = memory

def after (m : Machine) (events : List Event) (memory : Memory) : Memory :=
  events.foldl (Event.effect m.wire) memory

def Follows (m : Machine) (part : RunState → Except RunError RunState) (tracer : Tracer) : Prop :=
  ∀ s : RunState, m.Yields (part s)
    (Shows (tracer s.bindings.values).1
      (m.after (tracer s.bindings.values).2 (Memory.ofBytes s.memory)))
    (tracer s.bindings.values).2

theorem follows_done : m.Follows .ok Tracer.done := fun s => ⟨s, rfl, rfl, rfl⟩

theorem Follows.andThen {f g : RunState → Except RunError RunState} {F G : Tracer}
    (hf : m.Follows f F) (hg : m.Follows g G) : m.Follows (fun s => f s >>= g) (F.andThen G) := by
  intro s
  apply Yields.bind
  apply (hf s).weaken
  rintro s' ⟨values, memory⟩
  have later := hg s'
  rw [values, memory] at later
  simpa [Tracer.andThen, after] using later

theorem follows_checks (checks : List Check) :
    m.Follows (fun s => do m.check s.bindings checks; return s) (Tracer.note (.checks checks)) := by
  intro s
  refine ⟨fun good => ⟨s, ?_, rfl, rfl⟩, fun bad => ?_⟩
  · simp [check_ok_iff.2 good, bind, Except.bind, pure, Except.pure]
  · cases h : m.check s.bindings checks with
    | ok _ => exact absurd (check_ok_iff.1 h) bad
    | error e => exact ⟨e, by simp [h, bind, Except.bind], s.bindings, rfl, h⟩

theorem follows_of_step {part : RunState → Except RunError RunState} {event : Values → Event}
    {next : Values → Values}
    (good : ∀ s, m.Allows (event s.bindings.values) → ∃ s', part s = .ok s' ∧
      Shows (next s.bindings.values)
        ((event s.bindings.values).effect m.wire (Memory.ofBytes s.memory)) s')
    (bad : ∀ s, ¬ m.Allows (event s.bindings.values) → ∃ e, part s = .error e ∧
      m.Raises e (event s.bindings.values)) :
    m.Follows part fun v => (next v, [event v]) :=
  fun s => ⟨fun h => good s h, fun h => bad s h⟩

theorem follows_start (c : Cursor) :
    m.Follows (fun s => m.start s c) fun v => (v.set c.name (c.init.read v m.wire), [.read c.init v]) := by
  refine follows_of_step ?_ ?_
  · rintro s ⟨x, hx⟩
    refine ⟨{ s with bindings := s.bindings.set c.name x }, ?_, ?_, rfl⟩
    · simp [start, value_ok_iff.2 hx, bind, Except.bind, pure, Except.pure]
    · simp [Bindings.values_set, Term.read_of_eval hx]
  · intro s bad
    cases h : m.value s.bindings c.init with
    | ok x => exact absurd ⟨x, value_ok_iff.1 h⟩ bad
    | error e =>
      exact ⟨e, by simp [start, h, bind, Except.bind], not_refusal_of_value h⟩

theorem follows_starts (cursors : List Cursor) :
    m.Follows (fun s => cursors.foldlM m.start s) (Tracer.start m.wire cursors) := by
  induction cursors with
  | nil => exact follows_done
  | cons c rest ih => exact (follows_start c).andThen ih

theorem get?_of_values {name : String} {x : Int64} (h : b.values name = some x.toInt) :
    b.get? name = some x := by
  obtain ⟨y, hy, e⟩ := Option.map_eq_some_iff.1 h
  rw [hy, Int64.toInt_inj.1 e]

theorem follows_advanceOne (move : Cursor × Int64) :
    m.Follows (fun s => advanceOne s move) fun v =>
      (v.set move.1.name ((v move.1.name).getD 0 + move.2.toInt),
        [.move move.1.name move.2.toInt v]) := by
  refine follows_of_step ?_ ?_
  · rintro s ⟨x, y, hx, hy⟩
    refine ⟨{ s with bindings := s.bindings.set move.1.name y }, ?_, ?_, rfl⟩
    · simp [advanceOne, bound, get?_of_values hx, ← hy, bind, Except.bind]
    · simp [Bindings.values_set, hx, hy]
  · intro s bad
    cases h : s.bindings.get? move.1.name with
    | none =>
      exact ⟨.unbound move.1.name, by simp [advanceOne, bound, h, bind, Except.bind], rfl⟩
    | some x =>
      have shown : s.bindings.values move.1.name = some x.toInt := by simp [Bindings.values, h]
      cases hc : checked (x.toInt + move.2.toInt) with
      | some y => exact absurd ⟨x, y, shown, checked_eq_some_iff.1 hc⟩ bad
      | none =>
        exact ⟨.arithmeticOverflow (move.1.name ++ " + " ++ toString move.2.toInt),
          by simp [advanceOne, bound, h, hc, bind, Except.bind], rfl⟩

theorem follows_moves (moves : List (Cursor × Int64)) :
    m.Follows (fun s => moves.foldlM advanceOne s)
      (Tracer.moves (moves.map fun p => (p.1.name, p.2.toInt))) := by
  induction moves with
  | nil => exact follows_done
  | cons move rest ih => exact (follows_advanceOne move).andThen ih

theorem yields_reads {s : RunState} {expected : RunState → Prop} {later : List Event}
    (cursors : List Cursor) {next : List Int64 → Except RunError RunState}
    (h : ∀ steps : List Int64,
      steps.map Int64.toInt = cursors.map (fun c => c.step.read s.bindings.values m.wire) →
        m.Yields (next steps) expected later) :
    m.Yields (cursors.mapM (fun c => m.value s.bindings c.step) >>= next) expected
      (cursors.map (fun c => .read c.step s.bindings.values) ++ later) := by
  induction cursors generalizing next with
  | nil => exact h [] rfl
  | cons c rest ih =>
    refine ⟨?_, fun bad => ?_⟩
    · rintro ⟨x, hx⟩
      rw [List.mapM_cons, value_ok_iff.2 hx]
      simp only [bind, Except.bind, pure, Except.pure] at ih ⊢
      have later := ih fun steps same => h (x :: steps) (by simp [same, Term.read_of_eval hx])
      cases hs : rest.mapM (fun c => m.value s.bindings c.step) <;> simpa [hs] using later
    · cases hv : m.value s.bindings c.step with
      | ok x => exact absurd ⟨x, value_ok_iff.1 hv⟩ bad
      | error e =>
        refine ⟨e, ?_, not_refusal_of_value hv⟩
        simp [List.mapM_cons, hv, bind, Except.bind]

theorem zip_map_eq {cursors : List Cursor} {steps : List Int64} {v : Values} {w : Wire}
    (same : steps.map Int64.toInt = cursors.map fun c => c.step.read v w) :
    (cursors.zip steps).map (fun p => (p.1.name, p.2.toInt)) =
      cursors.map fun c => (c.name, c.step.read v w) := by
  induction cursors generalizing steps with
  | nil => rfl
  | cons c rest ih =>
    cases steps with
    | nil => simp at same
    | cons x xs =>
      simp only [List.map_cons, List.cons.injEq] at same
      simp [same.1, ih same.2]

theorem after_reads (cursors : List Cursor) (v : Values) (events : List Event) (memory : Memory) :
    m.after (cursors.map (fun c => .read c.step v) ++ events) memory = m.after events memory := by
  induction cursors with
  | nil => rfl
  | cons c rest ih => exact ih

theorem follows_advance (cursors : List Cursor) :
    m.Follows (m.advance cursors) (Tracer.advance m.wire cursors) := by
  intro s
  apply yields_reads
  intro steps same
  have moved := follows_moves (m := m) (cursors.zip steps) s
  rw [zip_map_eq same] at moved
  simpa [Tracer.advance, after_reads] using moved

theorem follows_rounds {round : Nat → RunState → Except RunError RunState} {traced : Nat → Tracer}
    (count index : Nat) (h : ∀ i < index + count, m.Follows (round i) (traced i)) :
    m.Follows (rounds round count index) (Tracer.rounds traced count index) := by
  induction count generalizing index with
  | zero => exact follows_done
  | succ count ih =>
    exact (h index (by omega)).andThen (ih (index + 1) fun i hi => h i (by omega))

theorem require_ok {size : Nat} (h : size ≤ m.limit) : m.require size = .ok () := by
  rw [require, if_neg (by omega)]

theorem not_refusal_of_require {size : Nat} {e : RunError} (h : m.require size = .error e) :
    e.isRefusal = false := by
  unfold require at h
  split at h
  · cases h
    rfl
  · cases h

theorem ofBytes_write_window (s : RunState) {dst src size : Int} (d0 : 0 ≤ dst) (s0 : 0 ≤ src)
    (n0 : 0 ≤ size) :
    Memory.ofBytes (write s dst.toNat (Bytes.window m.calldata src.toNat size.toNat)).memory =
      (Memory.ofBytes s.memory).patched dst size (m.wire.drop src) := by
  rw [Memory.ofBytes_write, Bytes.size_window, Int.toNat_of_nonneg d0, Int.toNat_of_nonneg n0]
  refine Memory.ext (funext fun i => ?_) rfl
  simp only [Memory.patched, Wire.patched]
  split
  · next inside =>
    rw [Wire.ofBytes_window _ _ _ (by omega) (by omega), Int.toNat_of_nonneg s0]
    rfl
  · rfl

theorem ofBytes_write_word (s : RunState) {dst : Int} (d0 : 0 ≤ dst) (n : Nat) :
    Memory.ofBytes (write s dst.toNat (Bytes.word n)).memory =
      (Memory.ofBytes s.memory).patched dst 32 (Wire.digits n) := by
  rw [Memory.ofBytes_write, Bytes.size_word, Int.toNat_of_nonneg d0]
  refine Memory.ext (funext fun i => ?_) rfl
  simp only [Memory.patched, Wire.patched]
  by_cases inside : dst ≤ i ∧ i < dst + 32
  · obtain ⟨k, hk⟩ := Int.eq_ofNat_of_zero_le (show 0 ≤ i - dst by omega)
    rw [if_pos (by omega), if_pos (by omega), hk, Wire.ofBytes_natCast,
      Bytes.byte_word _ _ (by omega)]
    rfl
  · rw [if_neg (by omega), if_neg (by omega)]

theorem copy_ok {s : RunState} {c : Copy} (h : m.Copies s.bindings.values c) :
    ∃ s', m.copy s c = .ok s' ∧ Shows s.bindings.values
      (c.write s.bindings.values m.wire (Memory.ofBytes s.memory)) s' := by
  obtain ⟨dst, src, size, hd, hs, hn, d0, s0, n0, room⟩ := h
  refine ⟨write s dst.toInt.toNat (Bytes.window m.calldata src.toInt.toNat size.toInt.toNat),
    ?_, rfl, ?_⟩
  · have below := require_ok (show dst.toInt.toNat + size.toInt.toNat ≤ m.limit by omega)
    simp only [copy, address_ok_iff.2 ⟨dst, hd, d0, rfl⟩, address_ok_iff.2 ⟨src, hs, s0, rfl⟩,
      address_ok_iff.2 ⟨size, hn, n0, rfl⟩, below, bind, Except.bind, pure, Except.pure]
  · rw [ofBytes_write_window s d0 s0 n0, Copy.write, Term.read_of_eval hd, Term.read_of_eval hs,
      Term.read_of_eval hn]

theorem point_ok {s : RunState} {p : Pointer} (h : m.Points s.bindings.values p) :
    ∃ s', m.point s p = .ok s' ∧ Shows s.bindings.values
      (p.write s.bindings.values m.wire (Memory.ofBytes s.memory)) s' := by
  obtain ⟨dst, value, hd, hv, d0, v0, room⟩ := h
  refine ⟨write s dst.toInt.toNat (Bytes.word value.toInt.toNat), ?_, rfl, ?_⟩
  · have below := require_ok (show dst.toInt.toNat + 32 ≤ m.limit by omega)
    simp only [point, address_ok_iff.2 ⟨dst, hd, d0, rfl⟩, address_ok_iff.2 ⟨value, hv, v0, rfl⟩,
      below, bind, Except.bind, pure, Except.pure]
  · rw [ofBytes_write_word s d0, Pointer.write, Term.read_of_eval hd, Term.read_of_eval hv]

theorem copy_error {s : RunState} {c : Copy} (h : ¬ m.Copies s.bindings.values c) :
    ∃ e, m.copy s c = .error e ∧ e.isRefusal = false := by
  unfold copy
  cases hd : m.address s.bindings c.dst with
  | error e => exact ⟨e, rfl, not_refusal_of_address hd⟩
  | ok d =>
    cases hs : m.address s.bindings c.src with
    | error e => exact ⟨e, by simp [bind, Except.bind], not_refusal_of_address hs⟩
    | ok a =>
      cases hn : m.address s.bindings c.size with
      | error e => exact ⟨e, by simp [bind, Except.bind], not_refusal_of_address hn⟩
      | ok n =>
        cases hr : m.require (d + n) with
        | error e => exact ⟨e, by simp [bind, Except.bind, hr], not_refusal_of_require hr⟩
        | ok _ =>
          obtain ⟨dst, ed, d0, rfl⟩ := address_ok_iff.1 hd
          obtain ⟨src, es, s0, rfl⟩ := address_ok_iff.1 hs
          obtain ⟨size, en, n0, rfl⟩ := address_ok_iff.1 hn
          unfold require at hr
          split at hr
          · cases hr
          · exact absurd ⟨dst, src, size, ed, es, en, d0, s0, n0, by omega⟩ h

theorem point_error {s : RunState} {p : Pointer} (h : ¬ m.Points s.bindings.values p) :
    ∃ e, m.point s p = .error e ∧ e.isRefusal = false := by
  unfold point
  cases hd : m.address s.bindings p.dst with
  | error e => exact ⟨e, rfl, not_refusal_of_address hd⟩
  | ok d =>
    cases hv : m.address s.bindings p.value with
    | error e => exact ⟨e, by simp [bind, Except.bind], not_refusal_of_address hv⟩
    | ok a =>
      cases hr : m.require (d + 32) with
      | error e => exact ⟨e, by simp [bind, Except.bind, hr], not_refusal_of_require hr⟩
      | ok _ =>
        obtain ⟨dst, ed, d0, rfl⟩ := address_ok_iff.1 hd
        obtain ⟨value, ev, v0, rfl⟩ := address_ok_iff.1 hv
        unfold require at hr
        split at hr
        · cases hr
        · exact absurd ⟨dst, value, ed, ev, d0, v0, by omega⟩ h

theorem foldlM_writes {α : Type} {act : RunState → α → Except RunError RunState}
    {fine : Values → α → Prop} (wrote : α → Values → Memory → Memory)
    (good : ∀ s a, fine s.bindings.values a → ∃ s', act s a = .ok s' ∧
      Shows s.bindings.values (wrote a s.bindings.values (Memory.ofBytes s.memory)) s')
    (bad : ∀ s a, ¬ fine s.bindings.values a → ∃ e, act s a = .error e ∧ e.isRefusal = false)
    (items : List α) (s : RunState) :
    ((∀ a ∈ items, fine s.bindings.values a) → ∃ s', items.foldlM act s = .ok s' ∧
      Shows s.bindings.values (items.foldl (fun memory a => wrote a s.bindings.values memory)
        (Memory.ofBytes s.memory)) s') ∧
    ((¬ ∀ a ∈ items, fine s.bindings.values a) →
      ∃ e, items.foldlM act s = .error e ∧ e.isRefusal = false) := by
  induction items generalizing s with
  | nil => exact ⟨fun _ => ⟨s, rfl, rfl, rfl⟩, fun h => absurd (by simp) h⟩
  | cons a rest ih =>
    by_cases ha : fine s.bindings.values a
    · obtain ⟨s', step, values, memory⟩ := good s a ha
      have later := ih s'
      rw [values, memory] at later
      simpa [List.foldlM_cons, step, ha, bind, Except.bind] using later
    · obtain ⟨e, failed, plain⟩ := bad s a ha
      simp [List.foldlM_cons, failed, ha, bind, Except.bind, plain]

theorem follows_block (copies : List Copy) (pointers : List Pointer) :
    m.Follows (fun s => do pointers.foldlM m.point (← copies.foldlM m.copy s))
      (Tracer.note (.block copies pointers)) := by
  refine follows_of_step ?_ ?_
  · rintro s ⟨hc, hp⟩
    obtain ⟨s', hs', values, memory⟩ :=
      (foldlM_writes (fun c v => c.write v m.wire) (fun _ _ => copy_ok) (fun _ _ => copy_error) copies s).1 hc
    obtain ⟨s'', hs'', shown⟩ :=
      (foldlM_writes (fun p v => p.write v m.wire) (fun _ _ => point_ok) (fun _ _ => point_error) pointers s').1 (by rwa [values])
    rw [values, memory] at shown
    exact ⟨s'', by simp [hs', hs'', bind, Except.bind], shown⟩
  · intro s bad
    by_cases hc : ∀ c ∈ copies, m.Copies s.bindings.values c
    · obtain ⟨s', hs', values, memory⟩ :=
        (foldlM_writes (fun c v => c.write v m.wire) (fun _ _ => copy_ok) (fun _ _ => copy_error) copies s).1 hc
      obtain ⟨e, failed, plain⟩ :=
        (foldlM_writes (fun p v => p.write v m.wire) (fun _ _ => point_ok) (fun _ _ => point_error) pointers s').2
          (by rw [values]; exact fun hp => bad ⟨hc, hp⟩)
      exact ⟨e, by simp [hs', failed, bind, Except.bind], plain⟩
    · obtain ⟨e, failed, plain⟩ :=
        (foldlM_writes (fun c v => c.write v m.wire) (fun _ _ => copy_ok) (fun _ _ => copy_error) copies s).2 hc
      exact ⟨e, by simp [failed, bind, Except.bind], plain⟩

theorem follows_count {t : Term} {next : Nat → RunState → Except RunError RunState}
    {traced : Nat → Tracer} (h : ∀ n < 2 ^ 63, m.Follows (next n) (traced n)) :
    m.Follows
      (fun s => do
        let n ← m.address s.bindings t
        m.require (capped (n * wordSize))
        next n s)
      (fun v => (Tracer.note (.count t)).andThen (traced (t.read v m.wire).toNat) v) := by
  intro s
  refine ⟨?_, fun bad => ?_⟩
  · rintro ⟨x, hx, x0, room⟩
    have shown := h x.toInt.toNat (by have := x.toInt_lt; omega) s
    simp only [address_ok_iff.2 ⟨x, hx, x0, rfl⟩, require_ok room, bind, Except.bind]
    rw [Term.read_of_eval hx]
    exact shown
  · cases ha : m.address s.bindings t with
    | error e => exact ⟨e, by simp [ha, bind, Except.bind], not_refusal_of_address ha⟩
    | ok n =>
      obtain ⟨x, hx, x0, rfl⟩ := address_ok_iff.1 ha
      cases hr : m.require (capped (x.toInt.toNat * wordSize)) with
      | error e =>
        exact ⟨e, by simp only [ha, hr, bind, Except.bind], not_refusal_of_require hr⟩
      | ok _ =>
        unfold require at hr
        split at hr
        · cases hr
        · exact absurd ⟨x, hx, x0, by omega⟩ bad

mutual

/-- A run of a plan does what its trace says. -/
theorem follows_execute (m : Machine) : (p : Plan) → m.Follows (m.execute p) (Tracer.plan m.wire p)
  | ⟨pointers, copies, loops, checks, _, _⟩ => by
    have early := follows_checks (m := m)
      (checks.partition (mentions (Plan.cursorNames loops))).2
    have late := follows_checks (m := m)
      (checks.partition (mentions (Plan.cursorNames loops))).1
    have whole := early.andThen ((follows_executeLoops m loops).andThen
      (late.andThen (follows_block copies pointers)))
    simp only [bind_assoc, pure_bind] at whole
    exact whole

theorem follows_executeLoops (m : Machine) :
    (loops : List Loop) → m.Follows (m.executeLoops loops) (Tracer.loops m.wire loops)
  | [] => follows_done
  | ⟨_, index, count, cursors, body⟩ :: rest => by
    have round (i : Nat) (hi : i < 2 ^ 63) : m.Follows
        (fun s => do
          let s ← m.execute body { s with bindings := s.bindings.set index (Int64.ofNat i) }
          m.advance cursors s)
        (Tracer.andThen (fun v => Tracer.plan m.wire body (v.set index i))
          (Tracer.advance m.wire cursors)) := by
      refine Follows.andThen (fun s => ?_) (follows_advance cursors)
      have shown := follows_execute m body
        { s with bindings := s.bindings.set index (Int64.ofNat i) }
      rwa [Bindings.values_set, Int64.toInt_ofNat_of_lt hi] at shown
    have whole := (follows_count (t := count) fun n hn => (follows_starts cursors).andThen
      (follows_rounds n 0 fun i hi => round i (by omega))).andThen (follows_executeLoops m rest)
    simp only [bind_assoc] at whole
    exact whole

end

end Machine
end Calldata

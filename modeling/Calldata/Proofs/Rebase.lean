import Calldata.Proofs.Frame

/-!
The trace of a moved plan. If the new start in calldata depends on no name that the plan itself
sets, every event of the moved plan is the moved event of the plan on the wire from that start on.
-/
namespace Calldata

def Event.rebased (b : Base) : Event → Event
  | .checks cs v => .checks (cs.map b.check) v
  | .count t v => .count (b.amount t) v
  | .read t v => .read (b.amount t) v
  | .move name step v => .move name step v
  | .block copies pointers v => .block (copies.map b.copy) (pointers.map b.pointer) v

namespace Base
variable {b : Base}

theorem read_amount {v : Values} {w : Wire} {start : Int} (place : b.calldata.read v w = start)
    (t : Term) : (b.amount t).read v w = t.read v (w.drop start) := by
  rw [amount, Term.read_moved, place]

theorem mem_occurrences_amount {n : String} {t : Term} (h : t.Plain)
    (other : n ∉ b.calldata.occurrences) : n ∈ (b.amount t).occurrences ↔ n ∈ t.occurrences :=
  h.mem_occurrences_moved other

theorem mentions_check {names : List String} (other : ∀ n ∈ names, n ∉ b.calldata.occurrences)
    {c : Check} (h : c.Plain) : Machine.mentions names (b.check c) = Machine.mentions names c := by
  rw [Bool.eq_iff_iff]
  simp only [Machine.mentions, List.any_eq_true, List.mem_append, check, List.contains_iff_mem]
  constructor
  · rintro ⟨n, found | found, hn⟩
    · exact ⟨n, .inl ((mem_occurrences_amount h.1 (other n hn)).1 found), hn⟩
    · exact ⟨n, .inr ((mem_occurrences_amount h.2 (other n hn)).1 found), hn⟩
  · rintro ⟨n, found | found, hn⟩
    · exact ⟨n, .inl ((mem_occurrences_amount h.1 (other n hn)).2 found), hn⟩
    · exact ⟨n, .inr ((mem_occurrences_amount h.2 (other n hn)).2 found), hn⟩

end Base

/-- Whether an event counts when checks may be left out. -/
def Event.counts (checked : Bool) : Event → Bool
  | .checks _ _ => checked
  | _ => true

theorem Event.counts_rebased (checked : Bool) (b : Base) (e : Event) :
    (e.rebased b).counts checked = e.counts checked := by
  cases e <;> rfl

namespace Tracer
variable {checked : Bool} {b : Base} {start : Int} {w : Wire}

/-- `f` on the whole wire is `g` on the wire from `start` on, moved. Checks may be left out of the
comparison: a moved check can lose a name, and then it is made at another time. -/
def Moved (checked : Bool) (b : Base) (start : Int) (w : Wire) (f g : Tracer) : Prop :=
  ∀ v, b.calldata.read v w = start →
    (f v).1 = (g v).1 ∧
      (f v).2.filter (Event.counts checked) =
        ((g v).2.filter (Event.counts checked)).map (Event.rebased b) ∧
      b.calldata.read (g v).1 w = start

theorem Moved.andThen {f g f' g' : Tracer} (h : Moved checked b start w f g)
    (h' : Moved checked b start w f' g') :
    Moved checked b start w (f.andThen f') (g.andThen g') := by
  intro v place
  obtain ⟨first, events, place'⟩ := h v place
  obtain ⟨second, events', place''⟩ := h' (g v).1 place'
  simp only [Tracer.andThen, first, second, List.filter_append, events, events', List.map_append,
    true_and]
  exact place''

theorem moved_done : Moved checked b start w done done := fun _ place => ⟨rfl, rfl, place⟩

theorem moved_note {event event' : Values → Event}
    (same : ∀ v, b.calldata.read v w = start → event v = (event' v).rebased b)
    (counts : ∀ v, (event' v).counts checked = true) :
    Moved checked b start w (note event) (note event') := by
  intro v place
  have counts' : ((event' v).rebased b).counts checked = true := by
    rw [Event.counts_rebased, counts v]
  simp [note, same v place, counts v, counts', place]

theorem moved_checks {checks checks' : List Check}
    (same : checked = true → checks = checks'.map b.check) :
    Moved checked b start w (note (.checks checks)) (note (.checks checks')) := by
  cases checked with
  | true => exact moved_note (fun v _ => congrArg (Event.checks · v) (same rfl)) fun _ => rfl
  | false => exact fun v place => ⟨rfl, rfl, place⟩

theorem read_set {v : Values} {name : String} {x : Int} {t : Term} (other : name ∉ t.occurrences) :
    t.read (v.set name x) w = t.read v w :=
  Term.read_congr fun n hn => set_other (by rintro rfl; exact other hn)

theorem moved_start {cursors : List Cursor}
    (other : ∀ n ∈ cursors.map Cursor.name, n ∉ b.calldata.occurrences) :
    Moved checked b start w (Tracer.start w (cursors.map b.cursor))
      (Tracer.start (w.drop start) cursors) := by
  induction cursors with
  | nil => exact moved_done
  | cons c rest ih =>
    refine Moved.andThen (fun v place => ?_) (ih fun n hn => other n (by simp_all))
    refine ⟨?_, rfl, ?_⟩
    · rw [Base.cursor, Base.read_amount place]
    · rw [read_set (other c.name (by simp)), place]

theorem moved_moves (steps : List (String × Int))
    (other : ∀ n ∈ steps.map Prod.fst, n ∉ b.calldata.occurrences) :
    Moved checked b start w (moves steps) (moves steps) := by
  induction steps with
  | nil => exact moved_done
  | cons s rest ih =>
    refine Moved.andThen (fun v place => ⟨rfl, rfl, ?_⟩) (ih fun n hn => other n (by simp_all))
    rw [read_set (other s.1 (by simp)), place]

theorem moved_advance {cursors : List Cursor}
    (other : ∀ n ∈ cursors.map Cursor.name, n ∉ b.calldata.occurrences) :
    Moved checked b start w (advance w (cursors.map b.cursor)) (advance (w.drop start) cursors) := by
  intro v place
  have steps : (cursors.map b.cursor).map (fun c => (c.name, c.step.read v w)) =
      cursors.map fun c => (c.name, c.step.read v (w.drop start)) := by
    simp [Function.comp_def, Base.cursor, Base.read_amount place]
  have moved : Moved checked b start w (moves _) (moves _) := moved_moves
    (cursors.map fun c => (c.name, c.step.read v (w.drop start)))
    (fun n hn => other n (by simpa [Function.comp_def] using hn))
  obtain ⟨_, tail, place'⟩ := moved v place
  refine ⟨by simp only [advance, steps], ?_, place'⟩
  simp only [advance, steps, List.filter_append, List.map_append]
  rw [← tail]
  simp [Function.comp_def, List.filter_map, Event.rebased, Base.cursor, Event.counts]

theorem moved_rounds {round round' : Nat → Tracer}
    (h : ∀ i, Moved checked b start w (round i) (round' i)) (count index : Nat) :
    Moved checked b start w (rounds round count index) (rounds round' count index) := by
  induction count generalizing index with
  | zero => exact moved_done
  | succ count ih => exact (h index).andThen (ih (index + 1))

mutual

theorem moved_plan : (p : Plan) → (checked = true → p.Plain) →
    (∀ n ∈ p.bound, n ∉ b.calldata.occurrences) →
    Moved checked b start w (plan w (b.plan p)) (plan (w.drop start) p)
  | ⟨pointers, copies, planLoops, checks, _, _⟩ => by
    intro plain other
    rw [Plan.bound] at other
    have kept (all : checked = true) : ∀ c ∈ checks,
        Machine.mentions (Plan.cursorNames planLoops) (b.check c) =
          Machine.mentions (Plan.cursorNames planLoops) c := fun c hc =>
      Base.mentions_check (fun n hn => other n (Plan.mem_boundOf_of_cursorNames _ hn))
        ((plain all).2.2.2.1 c hc)
    simp only [Base.plan, plan, Base.cursorNames_loops, List.partition_eq_filter_filter]
    refine (moved_checks fun all => ?_).andThen
      ((moved_loops planLoops (fun all => (plain all).2.2.1) other).andThen
        ((moved_checks fun all => ?_).andThen (moved_note (fun v _ => rfl) fun _ => rfl)))
    · rw [List.filter_map]
      exact congrArg _ (List.filter_congr fun c hc => by simp [kept all c hc])
    · rw [List.filter_map]
      exact congrArg _ (List.filter_congr fun c hc => kept all c hc)

theorem moved_loops : (l : List Loop) → (checked = true → Plan.PlainLoops l) →
    (∀ n ∈ Plan.boundOf l, n ∉ b.calldata.occurrences) →
    Moved checked b start w (loops w (b.loops l)) (loops (w.drop start) l)
  | [] => fun _ _ => moved_done
  | ⟨_, index, count, cursors, body⟩ :: rest => by
    intro plain other
    simp only [Plan.boundOf, List.mem_cons, List.mem_append] at other
    have names : ∀ n ∈ cursors.map Cursor.name, n ∉ b.calldata.occurrences :=
      fun n hn => other n (.inr (.inl hn))
    refine Moved.andThen (fun v place => ?_)
      (moved_loops rest (fun all => (plain all).2.2.2) fun n hn => other n (.inr (.inr (.inr hn))))
    rw [Base.read_amount place]
    have counted : Moved checked b start w (note (.count (b.amount count))) (note (.count count)) :=
      moved_note (fun v _ => rfl) fun _ => rfl
    refine (counted.andThen ((moved_start names).andThen (moved_rounds (fun i => ?_) _ _))) v place
    refine Moved.andThen (fun v place => ?_) (moved_advance names)
    exact moved_plan body (fun all => (plain all).2.2.1)
      (fun n hn => other n (.inr (.inr (.inl hn)))) (v.set index i)
      (by rw [read_set (other index (.inl rfl)), place])

end

theorem filter_counts_true (events : List Event) : events.filter (Event.counts true) = events :=
  List.filter_eq_self.2 fun e _ => by cases e <;> rfl

/-- Where checks count, all events are moved ones. -/
theorem Moved.eq {f g : Tracer} (h : Moved true b start w f g) {v : Values}
    (place : b.calldata.read v w = start) :
    f v = ((g v).1, (g v).2.map (Event.rebased b)) := by
  obtain ⟨last, events, _⟩ := h v place
  rw [filter_counts_true, filter_counts_true] at events
  exact Prod.ext last events

end Tracer
end Calldata

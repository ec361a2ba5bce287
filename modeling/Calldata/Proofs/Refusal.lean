import Calldata.Proofs.StrictRuns

/-!
How strict runs fail. A check compares an offset with its canonical place, and an offset that is too
large just fails it. So a run refuses its calldata, and fails in no other way, as long as everything
up to the first check that fails can be read and fits. That is so for every calldata whose value at
the canonical places fits in memory. Otherwise what stands at the canonical places may be junk, which
strict plans read before they report a check that failed.
-/
namespace Calldata
open Cell Value

def RunError.Refuses (e : RunError) : Prop := ∃ names, names ≠ [] ∧ e = .invalidEncoding names

def Event.Ready (u : Wire) (reach room : Int) (e : Event) : Prop :=
  ∀ a ∈ e.acts, a.Ready u reach room ∧ a.Within u room

def Event.Agrees (u : Wire) (e : Event) : Prop := ∀ a ∈ e.acts, a.Agrees u

/-- Each event is ready if all checks before it agree, and if all agree `done` holds. -/
def Guarded (u : Wire) (reach room : Int) (done : Prop) : List Event → Prop
  | [] => done
  | e :: rest => e.Ready u reach room ∧ (e.Agrees u → Guarded u reach room done rest)

namespace Guarded
variable {u : Wire} {reach room : Int} {done : Prop} {events : List Event}

theorem of_ready (ready : ∀ e ∈ events, e.Ready u reach room) (holds : (∀ e ∈ events, e.Agrees u) → done) :
    Guarded u reach room done events := by
  induction events with
  | nil => exact holds fun e he => nomatch he
  | cons e rest ih =>
    obtain ⟨first, later⟩ := List.forall_mem_cons.1 ready
    exact ⟨first, fun agrees => ih later fun others => holds (List.forall_mem_cons.2 ⟨agrees, others⟩)⟩

theorem ready (h : Guarded u reach room done events) (agrees : ∀ e ∈ events, e.Agrees u) :
    ∀ e ∈ events, e.Ready u reach room := by
  induction events with
  | nil => exact fun e he => nomatch he
  | cons e rest ih =>
    obtain ⟨here, behind⟩ := List.forall_mem_cons.1 agrees
    exact List.forall_mem_cons.2 ⟨h.1, ih (h.2 here) behind⟩

theorem merged (h : Guarded u reach room done events) (clear : ∀ e ∈ events, e.Clear) :
    Guarded u reach room done (events.map Event.merged) := by
  induction events with
  | nil => exact h
  | cons e rest ih =>
    obtain ⟨here, behind⟩ := List.forall_mem_cons.1 clear
    refine ⟨fun a ha => ?_, fun agrees => ih (h.2 (Event.agrees_of_merged agrees)) behind⟩
    exact ⟨Event.ready_merged (fun a ha => (h.1 a ha).1) a ha, here.within_merged (fun a ha => (h.1 a ha).2) a ha⟩

end Guarded

namespace Machine
variable {m : Machine} {b : Bindings} {reach room : Int} {done : Prop} {error : RunError}

theorem passes_of_ready {c : Check} (ready : (Act.check c b.values).Ready m.wire reach room)
    (reaches : reach < 2 ^ 63) : ∃ passed, m.passes b c = .ok passed := by
  obtain ⟨⟨plain, plain'⟩, ⟨a, word, located, low⟩, expected, bound⟩ := ready
  have address : a.Plain := by
    rw [word] at plain
    cases plain with
    | load h => exact h
  obtain ⟨x, hx, place⟩ := address.eval_of_ready located (by omega) (by omega)
  obtain ⟨y, hy, _⟩ := plain'.eval_of_ready expected (by omega) (by omega)
  have x0 : 0 ≤ x.toInt := by
    rw [place]
    exact address.read_nonneg located
  unfold passes
  rw [word, value, value_ok_iff.2 hx, value_ok_iff.2 hy]
  simp only [nonNegative, if_pos x0, bind, Except.bind]
  cases m.word? x.toInt.toNat <;> exact ⟨_, rfl⟩

/-- Checks that fail are refused by their names, or one of them raises an error itself. -/
theorem check_error {checks : List Check} (failed : m.check b checks = .error error) :
    error.Refuses ∨ ∃ c ∈ checks, m.passes b c = .error error := by
  rw [check] at failed
  cases found : checks.filterM fun c => do return !(← m.passes b c) with
  | error e =>
    rw [found] at failed
    cases failed
    obtain ⟨c, hc, raised⟩ := filterM_error found
    refine .inr ⟨c, hc, ?_⟩
    cases passed : m.passes b c with
    | ok _ =>
      rw [passed] at raised
      cases raised
    | error e =>
      rw [passed] at raised
      exact raised
  | ok refused =>
    rw [found] at failed
    cases refused with
    | nil => cases failed
    | cons c rest =>
      cases failed
      exact .inl ⟨_, List.cons_ne_nil _ _, rfl⟩

theorem refuses_of_check {checks : List Check}
    (ready : ∀ c ∈ checks, (Act.check c b.values).Ready m.wire reach room) (reaches : reach < 2 ^ 63)
    (failed : m.check b checks = .error error) : error.Refuses := by
  refine (check_error failed).resolve_right fun raised => ?_
  obtain ⟨c, hc, raised⟩ := raised
  obtain ⟨passed, ok⟩ := passes_of_ready (ready c hc) reaches
  rw [ok] at raised
  cases raised

theorem not_refusal_of_passes {c : Check} (failed : m.passes b c = .error error) : error.isRefusal = false := by
  have compared {actual : Option Int64}
      (failed : (do return actual == some (← m.value b c.expected) : Except RunError Bool) = .error error) :
      error.isRefusal = false := by
    cases expected : m.value b c.expected with
    | ok y =>
      rw [expected] at failed
      cases failed
    | error e =>
      rw [expected] at failed
      cases failed
      exact not_refusal_of_value expected
  unfold passes at failed
  cases actual : m.value b c.actual with
  | ok x =>
    rw [actual] at failed
    exact compared failed
  | error e =>
    rw [actual] at failed
    cases e with
    | wordOverflow _ => exact compared failed
    | invalidEncoding _ | unbound _ | arithmeticOverflow _ | negativeAddress _ | memoryLimit _ _ =>
      cases failed
      exact not_refusal_of_value actual

theorem Yields.refuses_of_isRefusal {result : Except RunError RunState} {expected : RunState → Prop}
    {events : List Event} (h : m.Yields result expected events) (failed : result = .error error)
    (refusal : error.isRefusal = true) : error.Refuses := by
  induction events with
  | nil =>
    obtain ⟨s, ended, _⟩ := h
    rw [failed] at ended
    cases ended
  | cons e rest ih =>
    by_cases good : m.Allows e
    · exact ih (h.1 good)
    · obtain ⟨raised, ended, raises⟩ := h.2 good
      rw [failed] at ended
      cases ended
      cases e with
      | checks checks v =>
        obtain ⟨b, _, found⟩ := raises
        refine (check_error found).resolve_right fun raised => ?_
        obtain ⟨c, _, raised⟩ := raised
        rw [not_refusal_of_passes raised] at refusal
        cases refusal
      | block copies pointers v | count t v | read t v | move name step v =>
        exact absurd refusal (Bool.eq_false_iff.1 raises)

theorem Yields.refuses {result : Except RunError RunState} {expected : RunState → Prop} {events : List Event}
    (h : m.Yields result expected events) (guarded : Guarded m.wire reach room done events) (reaches : reach < 2 ^ 63)
    (fits : room ≤ m.limit) (low : room < 2 ^ 63) (failed : result = .error error) : error.Refuses := by
  induction events with
  | nil =>
    obtain ⟨s, ended, _⟩ := h
    rw [failed] at ended
    cases ended
  | cons e rest ih =>
    obtain ⟨ready, later⟩ := guarded
    have allowed (agrees : e.Agrees m.wire) : m.Allows e := (allows_iff e).2 fun a ha =>
      permits_of_ready (ready a ha).1 reaches fits low (ready a ha).2 (agrees a ha)
    by_cases good : m.Allows e
    · exact ih (h.1 good) (later fun a ha => agrees_of_permits ((allows_iff e).1 good a ha))
    · obtain ⟨raised, ended, raises⟩ := h.2 good
      rw [failed] at ended
      cases ended
      cases e with
      | checks checks v =>
        obtain ⟨b, rfl, found⟩ := raises
        exact refuses_of_check (fun c hc => (ready _ (List.mem_map_of_mem hc)).1) reaches found
      | block copies pointers v =>
        refine absurd (allowed fun a ha => ?_) good
        rcases List.mem_append.1 ha with ha | ha
        all_goals
          obtain ⟨_, _, rfl⟩ := List.mem_map.1 ha
          trivial
      | count t v | read t v | move name step v =>
        refine absurd (allowed fun a ha => ?_) good
        cases List.mem_singleton.1 ha
        trivial

theorem run_refuses_of_isRefusal {p : Plan} (failed : m.run p 0 0 = .error error) (refusal : error.isRefusal = true) :
    error.Refuses := by
  simp only [run, and_self, if_true] at failed
  cases executed : m.execute p ⟨.empty, .empty⟩ with
  | error e =>
    rw [executed] at failed
    cases failed
    exact (follows_execute m p ⟨.empty, .empty⟩).refuses_of_isRefusal executed refusal
  | ok s =>
    rw [executed] at failed
    refine absurd refusal (Bool.eq_false_iff.1 ?_)
    cases size : m.address s.bindings p.memorySize with
    | error e =>
      simp only [bind, Except.bind, size] at failed
      cases failed
      exact not_refusal_of_address size
    | ok n =>
      cases measured : p.calldataSize with
      | none =>
        simp only [bind, Except.bind, size, measured] at failed
        cases failed
      | some t =>
        cases extent : m.address s.bindings t with
        | error e =>
          simp only [bind, Except.bind, size, measured, Option.mapM_some, extent, Functor.map, Except.map] at failed
          cases failed
          exact not_refusal_of_address extent
        | ok k =>
          simp only [bind, Except.bind, size, measured, Option.mapM_some, extent, Functor.map, Except.map] at failed
          cases failed

theorem run_refuses {p : Plan} (guarded : Guarded m.wire reach room done (Tracer.plan m.wire p .unset).2)
    (reaches : reach < 2 ^ 63) (fits : room ≤ m.limit) (low : room < 2 ^ 63)
    (ends : (∀ e ∈ (Tracer.plan m.wire p .unset).2, m.Allows e) → ∃ i, m.run p 0 0 = .ok i)
    (failed : m.run p 0 0 = .error error) : error.Refuses := by
  have follows := follows_execute m p ⟨.empty, .empty⟩
  have start : (RunState.mk .empty .empty).bindings.values = Values.unset := rfl
  rw [start] at follows
  cases executed : m.execute p ⟨.empty, .empty⟩ with
  | error e =>
    have same : m.run p 0 0 = .error e := by
      simp only [run, executed, and_self, if_true, bind, Except.bind]
    cases failed.symm.trans same
    exact follows.refuses guarded reaches fits low executed
  | ok s =>
    obtain ⟨i, ran⟩ := ends (follows.allows executed).1
    cases failed.symm.trans ran

end Machine

theorem Plan.Sound.ready_acts {p : Plan} {part : Part} {u : Wire} {v : Values} (sound : p.Sound true part)
    (hv : v.Nonneg) (small : ((part.decode u).size : Int) < Term.top) :
    ∀ a ∈ p.acts u v, a.Ready u (part.decode u).extent (part.decode u).size ∧ a.Within u (part.decode u).size := by
  have decodes := sound.decodes v u 0 hv (Int.le_refl 0) (.inl small)
  have top : (part.decode u).size < 2 ^ 63 := by
    unfold Term.top at small
    omega
  intro a ha
  have within := (decodes.good a ha).within
  rw [Value.length_image] at within
  exact ⟨(decodes.ready (.inl rfl) top).1 a ha, within⟩

namespace Tree
variable {t : Tree} {m : Machine} {scope : String} {merge : Bool} {reach : Int} {room : Nat} {done : Prop} {error : RunError}

/-- If all checks of a guarded trace agree, calldata is canonical and the strict run ends well. -/
theorem strict_run_of_agrees (plain : ∀ f ∈ t.fieldNames, PlainField f) (distinct : t.Distinct)
    (clean : merge = true → PlainScope scope) (fits : room ≤ m.limit) (low : (room : Int) < Term.top)
    (guarded : Guarded m.wire reach room done (Tracer.plan m.wire (t.plan true scope) .unset).2)
    (agrees : ∀ e ∈ (Tracer.plan m.wire (t.plan true scope) .unset).2, e.Agrees m.wire) :
    ∃ j, m.run (t.planWith ⟨true, merge⟩ scope) 0 0 = .ok j := by
  have sound := (t.sound_plan true plain distinct scope).1
  have ready := guarded.ready agrees
  have within : ∀ a ∈ (t.plan true scope).acts m.wire .unset, a.Within m.wire room := by
    refine (Machine.forall_trace_iff (Act.local_within _ _) sound.closed).1 fun a ha => ?_
    obtain ⟨e, he, ha⟩ := List.mem_flatMap.1 ha
    exact (ready e he a ha).2
  have equal : ∀ a ∈ (t.plan true scope).acts m.wire .unset, a.Agrees m.wire := by
    refine (Machine.forall_trace_iff (Act.local_agrees _) sound.closed).1 fun a ha => ?_
    obtain ⟨e, he, ha⟩ := List.mem_flatMap.1 ha
    exact agrees e he a ha
  have decodes := sound.decodes .unset m.wire 0 Values.nonneg_unset (Int.le_refl 0) (.inr ⟨room, low, within⟩)
  have canonical : m.wire.Matches (t.decode true m.wire).cells := decodes.agrees.1 equal rfl
  have size : (t.decode true m.wire).size ≤ room := decodes.size_le within
  obtain ⟨j, ran, _⟩ := strict_run_of_matches plain distinct clean canonical (by omega) (by omega)
  exact ⟨j, ran⟩

theorem refuses_of_guarded (plain : ∀ f ∈ t.fieldNames, PlainField f) (distinct : t.Distinct)
    (clean : merge = true → PlainScope scope) (reaches : reach < 2 ^ 63) (fits : room ≤ m.limit)
    (low : (room : Int) < Term.top)
    (guarded : Guarded m.wire reach room done (Tracer.plan m.wire (t.plan true scope) .unset).2)
    (failed : m.run (t.planWith ⟨true, merge⟩ scope) 0 0 = .error error) : error.Refuses := by
  have top : (room : Int) < 2 ^ 63 := by
    unfold Term.top at low
    omega
  have ends := strict_run_of_agrees plain distinct clean fits low guarded
  unfold planWith at ends failed
  cases merge with
  | false =>
    refine Machine.run_refuses guarded reaches (by omega) top (fun allowed => ends fun e he a ha => ?_) failed
    exact Machine.agrees_of_permits ((Machine.allows_iff e).1 (allowed e he) a ha)
  | true =>
    have mergeable := mergeable true plain distinct (clean rfl)
    have traced : (Tracer.plan m.wire (t.plan true scope).merged .unset).2 =
        (Tracer.plan m.wire (t.plan true scope) .unset).2.map Event.merged :=
      congrArg Prod.snd (Tracer.plan_merged (t.plan true scope) .unset)
    refine Machine.run_refuses (traced ▸ guarded.merged mergeable.clear) reaches (by omega) top
      (fun allowed => ends fun e he => Event.agrees_of_merged fun a ha => ?_) failed
    have there : e.merged ∈ (Tracer.plan m.wire (t.plan true scope).merged .unset).2 := by
      rw [traced]
      exact List.mem_map_of_mem he
    exact Machine.agrees_of_permits ((Machine.allows_iff _).1 (allowed _ there) a ha)

/-- If the value at the canonical places fits, a strict run ends well or refuses. -/
theorem refuses_of_fits (plain : ∀ f ∈ t.fieldNames, PlainField f) (distinct : t.Distinct)
    (clean : merge = true → PlainScope scope) (fits : (t.decode true m.wire).size ≤ m.limit)
    (low : ((t.decode true m.wire).size : Int) < Term.top)
    (failed : m.run (t.planWith ⟨true, merge⟩ scope) 0 0 = .error error) : error.Refuses := by
  have sound := (t.sound_plan true plain distinct scope).1
  have extent := (t.decode true m.wire).extent_le_size
  have top : ((t.decode true m.wire).size : Int) < 2 ^ 63 := by
    unfold Term.top at low
    omega
  have traced := (Machine.forall_trace_iff ((Act.local_ready m.wire _ _).and (Act.local_within m.wire _))
    sound.closed).2 (sound.ready_acts Values.nonneg_unset low)
  exact @refuses_of_guarded _ _ _ _ (t.decode true m.wire).extent _ True _ plain distinct clean (by omega) fits low
    (.of_ready (fun e he a ha => traced a (List.mem_flatMap.2 ⟨e, he, ha⟩)) fun _ => trivial) failed

end Tree

end Calldata

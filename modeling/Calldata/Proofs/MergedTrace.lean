import Calldata.Proofs.Cursors
import Calldata.Proofs.Run

/-!
The trace of a merged plan is the trace of the plan with merged copies in every block. Each block
stands for a level of the plan with settled values, so its arrangement says what merging does to it.
-/
namespace Calldata

def Event.merged : Event → Event
  | .block copies pointers v => .block (Copy.merge copies) pointers v
  | e => e

namespace Tracer
variable {w : Wire}

theorem andThen_map {f g f' g' : Tracer} {h : Event → Event} (hf : ∀ v, f' v = ((f v).1, (f v).2.map h))
    (hg : ∀ v, g' v = ((g v).1, (g v).2.map h)) (v : Values) :
    (f'.andThen g') v = ((f.andThen g v).1, (f.andThen g v).2.map h) := by
  simp only [andThen, hf, hg, List.map_append]

theorem start_merged (cursors : List Cursor) (v : Values) :
    start w cursors v = ((start w cursors v).1, (start w cursors v).2.map Event.merged) := by
  induction cursors generalizing v with
  | nil => rfl
  | cons c rest ih =>
    rw [start]
    refine andThen_map (fun _ => ?_) ih v
    rfl

theorem moves_merged (steps : List (String × Int)) (v : Values) :
    moves steps v = ((moves steps v).1, (moves steps v).2.map Event.merged) := by
  induction steps generalizing v with
  | nil => rfl
  | cons s rest ih =>
    rw [moves]
    refine andThen_map (fun _ => ?_) ih v
    rfl

theorem advance_merged (cursors : List Cursor) (v : Values) :
    advance w cursors v = ((advance w cursors v).1, (advance w cursors v).2.map Event.merged) := by
  have moved : (moves (cursors.map fun c => (c.name, c.step.read v w)) v).2 =
      (moves (cursors.map fun c => (c.name, c.step.read v w)) v).2.map Event.merged :=
    congrArg Prod.snd (moves_merged _ v)
  simp only [advance, List.map_append, ← moved, List.map_map]
  rfl

theorem rounds_merged {round round' : Nat → Tracer}
    (h : ∀ i v, round' i v = ((round i v).1, (round i v).2.map Event.merged)) (count index : Nat) (v : Values) :
    rounds round' count index v =
      ((rounds round count index v).1, (rounds round count index v).2.map Event.merged) := by
  induction count generalizing index v with
  | zero => rfl
  | succ count ih => exact andThen_map (h index) (ih (index + 1)) v

mutual

theorem plan_merged : (p : Plan) → ∀ v, plan w p.merged v = ((plan w p v).1, (plan w p v).2.map Event.merged)
  | ⟨_, _, planLoops, _, _, _⟩ => by
    rw [Plan.merged, plan, plan, Plan.cursorNames_merged]
    exact andThen_map (fun _ => rfl) (andThen_map (loops_merged planLoops)
      (andThen_map (fun _ => rfl) fun _ => rfl))

theorem loops_merged : (l : List Loop) →
    ∀ v, loops w (Plan.mergedLoops l) v = ((loops w l v).1, (loops w l v).2.map Event.merged)
  | [] => fun _ => rfl
  | ⟨_, index, count, cursors, body⟩ :: rest => by
    rw [Plan.mergedLoops, loops, loops]
    refine andThen_map (fun v => ?_) (loops_merged rest)
    have counted (v : Values) : note (.count count) v =
        ((note (.count count) v).1, (note (.count count) v).2.map Event.merged) := rfl
    refine andThen_map counted (andThen_map (start_merged cursors) (rounds_merged (fun i => ?_) _ _)) v
    exact andThen_map (fun v => plan_merged body (v.set index i)) (advance_merged cursors)

end
end Tracer

/-- A block of copies that are plain, also in their names, where no name is worth less than zero. -/
def Event.Clear : Event → Prop
  | .block copies _ v => v.Nonneg ∧ ∀ c ∈ copies, c.Plain ∧ c.PlainNames
  | _ => True

/-- A block that stands for an arranged level with settled values. -/
def Event.Laid (lossy : Bool) (lengths : String → Prop) (w : Wire) : Event → Prop
  | .block copies pointers v => ∃ marks low high items,
    Arrangement lossy lengths marks copies pointers low high items ∧ (v.scene w).Settled marks ∧
      ∀ c ∈ copies, c.dst.sample 0 + c.size.sample 0 < 2 ^ 63
  | _ => True

namespace Plan
variable {p : Plan} {known : List String} {loops : List Loop} {n : String}

theorem mem_cursorsOf_of_marks (h : n ∈ marks loops) : n ∈ cursorsOf loops := by
  simp only [marks, cursorsOf, List.mem_flatMap, List.mem_map] at h ⊢
  obtain ⟨l, hl, c, hc, rfl⟩ := h
  exact ⟨l, hl, c, List.mem_of_mem_take hc, rfl⟩

theorem isCursor_of_marks (rising : RisingLoops loops) (h : n ∈ marks loops) : IsCursor n := by
  induction loops with
  | nil => cases h
  | cons loop rest ih =>
    obtain ⟨_, _, _, cursors, _⟩ := loop
    rw [marks, List.flatMap_cons, List.mem_append] at h
    rcases h with h | h
    · obtain ⟨c, hc, rfl⟩ := List.mem_map.1 h
      exact rising.2.1 c hc
    · exact ih rising.2.2.2.2 h

theorem plainNames_of_closed (closed : p.Closed known) (given : ∀ n ∈ known, PlainName n)
    (bound : ∀ n ∈ p.bound, PlainName n) : ∀ c ∈ p.copies, c.PlainNames := by
  have named (n : String) (hn : n ∈ p.names) : PlainName n := by
    rcases List.mem_append.1 ((closed_iff.1 closed).2 n hn) with h | h
    · exact bound n (mem_bound.2 (mem_boundOf_of_cursorNames _ (mem_cursorNames_of_cursorsOf _ h)))
    · exact given n h
  intro c hc
  have mentioned (n : String) (hn : n ∈ (Act.copy c fun _ => none).mentions) : PlainName n :=
    named n (mentions_of_mem_level (copy_mem_level hc _) n hn)
  simp only [Act.mentions, List.mem_append] at mentioned
  exact ⟨fun n hn => mentioned n (.inl hn), fun n hn => mentioned n (.inr (.inl hn)),
    fun n hn => mentioned n (.inr (.inr hn))⟩

theorem withinSample_of_block {v : Values} {w : Wire} {bound : Int} (plain : p.Plain) (hv : v.Nonneg)
    (within : ∀ a ∈ (Event.block p.copies p.pointers v).acts, a.Within w bound) :
    Draft.WithinSample bound p := by
  have least {t : Term} (ht : t.Plain) : t.sample 0 ≤ t.read v w := ht.sample_zero_le hv.getD w.word_nonneg
  simp only [Event.acts, List.forall_mem_append, List.forall_mem_map] at within
  obtain ⟨plainPointers, plainCopies, -⟩ := plain_iff.1 plain
  refine ⟨fun c hc => ?_, fun q hq => ?_⟩
  · have : _ + _ ≤ bound := within.1 c hc
    have := least (plainCopies c hc).1
    have := least (plainCopies c hc).2.2
    omega
  · have : _ + _ ≤ bound := within.2 q hq
    have := least (plainPointers q hq).1
    omega

end Plan

namespace Tracer
variable {lossy : Bool} {lengths : String → Prop} {w : Wire} {bound : Int}

theorem forall_start {P : Event → Prop} (read : ∀ t v, P (.read t v)) (cursors : List Cursor) (v : Values) :
    ∀ e ∈ (start w cursors v).2, P e := by
  induction cursors generalizing v with
  | nil => exact fun e he => nomatch he
  | cons c rest ih => exact List.forall_mem_cons.2 ⟨read _ _, ih _⟩

theorem forall_moves {P : Event → Prop} (move : ∀ name step v, P (.move name step v))
    (steps : List (String × Int)) (v : Values) : ∀ e ∈ (moves steps v).2, P e := by
  induction steps generalizing v with
  | nil => exact fun e he => nomatch he
  | cons s rest ih => exact List.forall_mem_cons.2 ⟨move _ _ _, ih _⟩

theorem forall_advance {P : Event → Prop} (read : ∀ t v, P (.read t v)) (move : ∀ name step v, P (.move name step v))
    (cursors : List Cursor) (v : Values) : ∀ e ∈ (advance w cursors v).2, P e :=
  List.forall_mem_append.2 ⟨List.forall_mem_map.2 fun _ _ => read _ _, forall_moves move _ v⟩

theorem forall_rounds {round : Nat → Tracer} {I : Values → Prop} {A P : Event → Prop}
    (keeps : ∀ i v, I v → I (round i v).1)
    (each : ∀ i v, I v → (∀ e ∈ (round i v).2, A e) → ∀ e ∈ (round i v).2, P e) (count index : Nat)
    {v : Values} (hv : I v) (all : ∀ e ∈ (rounds round count index v).2, A e) :
    ∀ e ∈ (rounds round count index v).2, P e := by
  induction count generalizing index v with
  | zero => exact fun e he => nomatch he
  | succ count ih =>
    obtain ⟨first, later⟩ := List.forall_mem_append.1 all
    exact List.forall_mem_append.2 ⟨each index v hv first, ih (index + 1) (keeps index v hv) later⟩

mutual

/-- The blocks of a closed plan are clear wherever they are reached. -/
theorem clear_plan : (p : Plan) → p.Plain → {known : List String} → p.Closed known → (∀ n ∈ known, PlainName n) →
    (∀ n ∈ p.bound, PlainName n) → {v : Values} → v.Nonneg → ∀ e ∈ (plan w p v).2, e.Clear
  | ⟨pointers, copies, planLoops, checks, memorySize, calldataSize⟩ => by
    intro plain known closed given bound' v hv
    simp only [plan, andThen, note, List.forall_mem_append, List.forall_mem_singleton]
    refine ⟨trivial, clear_loops planLoops plain.2.2.1 (Plan.closed_iff.1 closed).1 given
      (fun n hn => bound' n (Plan.mem_bound.2 hn)) hv, trivial, nonneg_loops _ plain.2.2.1 hv, fun c hc => ?_⟩
    exact ⟨plain.2.1 c hc, Plan.plainNames_of_closed closed given bound' c hc⟩

theorem clear_loops : (l : List Loop) → Plan.PlainLoops l → {known : List String} → Plan.ClosedLoops known l →
    (∀ n ∈ known, PlainName n) → (∀ n ∈ Plan.boundOf l, PlainName n) → {v : Values} → v.Nonneg →
    ∀ e ∈ (loops w l v).2, e.Clear
  | [] => by
    intro _ _ _ _ _ _ _ e he
    cases he
  | ⟨_, index, count, cursors, body⟩ :: rest => by
    rintro ⟨_, hc, hb, hr⟩ known ⟨counted, closedInits, closedBody, closedSteps, closedRest⟩ given bound' v hv
    simp only [Plan.boundOf, List.mem_cons, List.mem_append] at bound'
    have cursorNames : ∀ n ∈ cursors.map Cursor.name ++ known, PlainName n :=
      List.forall_mem_append.2 ⟨fun n hn => bound' n (by tauto), given⟩
    have names : ∀ n ∈ index :: (cursors.map Cursor.name ++ known), PlainName n :=
      List.forall_mem_cons.2 ⟨bound' index (.inl rfl), cursorNames⟩
    have started := nonneg_start (w := w) hc hv
    have entered {i : Nat} {v : Values} (hv : v.Nonneg) : (v.set index i).Nonneg := hv.set (Int.natCast_nonneg i)
    have round (i : Nat) (v : Values) (hv : v.Nonneg) :
        (andThen (fun v => plan w body (v.set index i)) (advance w cursors) v).1.Nonneg :=
      nonneg_advance hc (nonneg_plan body hb (entered hv))
    refine List.forall_mem_append.2 ⟨List.forall_mem_append.2 ⟨List.forall_mem_singleton.2 trivial,
      List.forall_mem_append.2 ⟨forall_start (fun _ _ => trivial) cursors v, ?_⟩⟩, ?_⟩
    · refine forall_rounds (A := fun _ => True) round (fun i v hv _ => ?_) _ _ started fun _ _ => trivial
      refine List.forall_mem_append.2 ⟨?_, forall_advance (fun _ _ => trivial) (fun _ _ _ => trivial) cursors _⟩
      exact clear_plan body hb closedBody names (fun n hn => bound' n (by tauto)) (entered hv)
    · exact clear_loops rest hr closedRest cursorNames (fun n hn => bound' n (by tauto))
        (nonneg_rounds round _ _ started)

end

mutual

theorem laid_plan (low : bound < Term.top) : (p : Plan) → p.Plain → p.Rising → p.Leveled lossy lengths →
    {set : List String} → {v : Values} → v.Settled set →
    (∀ e ∈ (plan w p v).2, ∀ a ∈ e.acts, a.Within w bound) → ∀ e ∈ (plan w p v).2, e.Laid lossy lengths w
  | ⟨pointers, copies, planLoops, checks, memorySize, calldataSize⟩ => by
    intro plain rising leveled set v hv within
    have last := settled_loops (w := w) planLoops plain.2.2.1 rising hv
    simp only [plan, andThen, note, List.forall_mem_append, List.forall_mem_singleton] at within ⊢
    obtain ⟨-, inner, -, block⟩ := within
    have sample := Plan.withinSample_of_block (w := w) plain last.nonneg block
    obtain ⟨⟨low', high, items, arranged⟩, loopsLeveled⟩ := leveled bound low sample
    refine ⟨trivial, laid_loops low planLoops plain.2.2.1 rising loopsLeveled hv inner, trivial, ?_⟩
    refine ⟨_, low', high, items, arranged, last.scene w (fun n hn => ?_) fun n => Plan.isCursor_of_marks rising,
      fun c hc => ?_⟩
    · exact List.mem_append_left _ (Plan.mem_cursorsOf_of_marks hn)
    · have := sample.1 c hc
      simp only [Term.top] at low
      omega

theorem laid_loops (low : bound < Term.top) : (l : List Loop) → Plan.PlainLoops l → Plan.RisingLoops l →
    Plan.LeveledLoops lossy lengths l → {set : List String} → {v : Values} → v.Settled set →
    (∀ e ∈ (loops w l v).2, ∀ a ∈ e.acts, a.Within w bound) → ∀ e ∈ (loops w l v).2, e.Laid lossy lengths w
  | [] => by
    intro _ _ _ _ _ _ _ e he
    cases he
  | ⟨_, index, count, cursors, body⟩ :: rest => by
    rintro ⟨_, hc, hb, hr⟩ ⟨other, first, inits, inner, later⟩ ⟨leveled, leveledRest⟩ set v hv within
    have started := settled_start (w := w) hc inits hv
    have listed : ∀ c ∈ cursors, c.name ∈ cursors.map Cursor.name ++ set :=
      fun c hc => List.mem_append_left _ (List.mem_map_of_mem hc)
    have round := settled_round (w := w) hc other listed fun v hv => settled_plan body hb inner hv
    obtain ⟨here, behind⟩ := List.forall_mem_append.1 within
    obtain ⟨-, here⟩ := List.forall_mem_append.1 here
    obtain ⟨-, here⟩ := List.forall_mem_append.1 here
    refine List.forall_mem_append.2 ⟨List.forall_mem_append.2 ⟨List.forall_mem_singleton.2 trivial,
      List.forall_mem_append.2 ⟨forall_start (fun _ _ => trivial) cursors v, ?_⟩⟩, ?_⟩
    · refine forall_rounds round (fun i v hv all => ?_) _ _ started here
      obtain ⟨first, -⟩ := List.forall_mem_append.1 all
      refine List.forall_mem_append.2 ⟨?_, forall_advance (fun _ _ => trivial) (fun _ _ _ => trivial) cursors _⟩
      exact laid_plan low body hb inner leveled
        (hv.set index (Int.natCast_nonneg i) fun follows => absurd follows other) first
    · exact laid_loops low rest hr later leveledRest (settled_rounds round _ _ started) behind

end
end Tracer

end Calldata

import Calldata.Proofs.Refusal

/-!
Types with at most one dynamic member in every tuple. What such a member is checked against is known
from the type alone, and nothing is read at its canonical place before the check of its offset. So
where the lenient run ends well, a strict run that fails refuses its calldata, whatever stands at the
canonical places.
-/
namespace Calldata
open Cell Value

namespace Guarded
variable {u : Wire} {reach room : Int} {done done' : Prop} {events : List Event}

theorem mono (h : Guarded u reach room done events) (weaker : done → done') : Guarded u reach room done' events := by
  induction events with
  | nil => exact weaker h
  | cons e rest ih => exact ⟨h.1, fun agrees => ih (h.2 agrees)⟩

theorem append {later : List Event} (h : Guarded u reach room (Guarded u reach room done later) events) :
    Guarded u reach room done (events ++ later) := by
  induction events with
  | nil => exact h
  | cons e rest ih => exact ⟨h.1, fun agrees => ih (h.2 agrees)⟩

end Guarded

structure Base.Stands (b : Base) (u : Wire) (start offset reach : Int) (v : Values) : Prop where
  calldata : b.calldata.read v u = start
  memory : b.memory.read v u = offset
  calldata_ready : b.calldata.Ready v u reach
  memory_ready : b.memory.Ready v u reach

theorem Base.Stands.congr {b : Base} {u : Wire} {start offset reach : Int} {v w : Values}
    (h : b.Stands u start offset reach v) (calldata : ∀ n ∈ b.calldata.occurrences, w n = v n)
    (memory : ∀ n ∈ b.memory.occurrences, w n = v n) : b.Stands u start offset reach w where
  calldata := (Term.read_congr calldata).trans h.calldata
  memory := (Term.read_congr memory).trans h.memory
  calldata_ready := (Term.ready_congr calldata).2 h.calldata_ready
  memory_ready := (Term.ready_congr memory).2 h.memory_ready

section Rebased
variable {b : Base} {u : Wire} {v : Values} {start offset reach room reach' room' : Int} {done : Prop}

theorem Guarded.rebased {events : List Event} (plain : b.Plain) (start0 : 0 ≤ start) (offset0 : 0 ≤ offset)
    (reaches : start + reach ≤ reach') (fits : offset + room ≤ room')
    (stands : ∀ e ∈ events, b.Stands u start offset reach' e.values)
    (h : Guarded (u.drop start) reach room done events) :
    Guarded u reach' room' done (events.map (Event.rebased b)) := by
  induction events with
  | nil => exact h
  | cons e rest ih =>
    obtain ⟨here, behind⟩ := List.forall_mem_cons.1 stands
    have values {a : Act} (ha : a ∈ e.acts) : b.Stands u start offset reach' a.values := by
      rw [Event.values_of_mem_acts ha]
      exact here
    refine ⟨?_, fun agrees => ih behind (h.2 fun a ha => ?_)⟩
    · unfold Event.Ready
      rw [Event.acts_rebased, List.forall_mem_map]
      intro a ha
      obtain ⟨place, there, calldata, memory⟩ := values ha
      obtain ⟨ready, within⟩ := h.1 a ha
      refine ⟨Act.ready_rebased plain place there calldata memory start0 offset0 reaches fits ready, ?_⟩
      exact (Act.within_rebased place there).2 (within.mono (by omega))
    · refine (Act.agrees_rebased (values ha).calldata).1 (agrees _ ?_)
      rw [Event.acts_rebased]
      exact List.mem_map_of_mem ha

theorem Guarded.loops_rebased {loops : List Loop} (plain : b.Plain) (start0 : 0 ≤ start) (offset0 : 0 ≤ offset)
    (reaches : start + reach ≤ reach') (fits : offset + room ≤ room') (plainLoops : Plan.PlainLoops loops)
    (apart : ∀ n ∈ Plan.boundOf loops, n ∉ b.calldata.occurrences ∧ n ∉ b.memory.occurrences)
    (stands : b.Stands u start offset reach' v)
    (h : Guarded (u.drop start) reach room done (Tracer.loops (u.drop start) loops v).2) :
    Guarded u reach' room' done (Tracer.loops u (b.loops loops) v).2 := by
  have moved := (Tracer.moved_loops loops (fun _ => plainLoops) fun n hn => (apart n hn).1).eq stands.calldata
  rw [moved]
  refine Guarded.rebased plain start0 offset0 reaches fits (fun e he => ?_) h
  have kept (n : String) (free : n ∉ Plan.boundOf loops) : e.values n = v n :=
    (Tracer.keeps_loops (u.drop start) loops v).2 e he n free
  exact stands.congr (fun n hn => kept n fun set => (apart n set).1 hn)
    fun n hn => kept n fun set => (apart n set).2 hn

end Rebased

/-- What happens in a plan whose checks wait for no loop. -/
theorem Tracer.plan_of_early {p : Plan} (u : Wire) (v : Values)
    (early : ∀ c ∈ p.checks, Machine.mentions (Plan.cursorNames p.loops) c = false) :
    (plan u p v).2 = .checks p.checks v :: ((loops u p.loops v).2 ++
      [.checks [] (p.last u v), .block p.copies p.pointers (p.last u v)]) := by
  obtain ⟨pointers, copies, planLoops, checks, memorySize, calldataSize⟩ := p
  have now : checks.filter (fun c => !Machine.mentions (Plan.cursorNames planLoops) c) = checks :=
    List.filter_eq_self.2 fun c hc => by rw [early c hc]; rfl
  have later : checks.filter (Machine.mentions (Plan.cursorNames planLoops)) = [] :=
    List.filter_eq_nil_iff.2 fun c hc => by rw [early c hc]; exact Bool.false_ne_true
  simp only [plan, andThen, note, List.partition_eq_filter_filter, Function.comp_def, now, later]
  rfl

namespace Plan
variable {p : Plan} {part : Part} {u : Wire} {v : Values}

/-- A plan whose checks are known from the type alone. If they agree, its loops run to the end or are
refused, and once they have run the plan has found what the offset words lead to. -/
structure Lone (p : Plan) (strict lenient : Wire → Value) : Prop where
  names : ∀ c ∈ p.checks, ∀ n, n ∉ c.actual.occurrences ++ c.expected.occurrences
  checks : ∀ c ∈ p.checks, ∀ (v : Values) (u u' : Wire) (room : Int),
    (Act.check c v).Ready u (lenient u').extent room
  loops : ∀ (v : Values) (u : Wire), v.Nonneg → ((lenient u).size : Int) < Term.top →
    (∀ c ∈ p.checks, (Act.check c v).Agrees u) →
      Guarded u (lenient u).extent (lenient u).size (strict u = lenient u) (Tracer.loops u p.loops v).2

theorem lone_of_unchecked (sound : p.Sound true part) (unchecked : p.checks = []) :
    p.Lone part.decode part.decode where
  names := by simp [unchecked]
  checks := by simp [unchecked]
  loops v u hv small _ := by
    refine .of_ready (fun e he a ha => ?_) fun _ => rfl
    exact sound.ready_acts hv small a (List.mem_append_left _ (List.mem_flatMap.2 ⟨e, he, ha⟩))

theorem Lone.guarded {lenient : Wire → Value} (h : p.Lone part.decode lenient) (sound : p.Sound true part)
    (hv : v.Nonneg) (small : ((lenient u).size : Int) < Term.top) :
    Guarded u (lenient u).extent (lenient u).size (part.decode u = lenient u) (Tracer.plan u p v).2 := by
  have early : ∀ c ∈ p.checks, Machine.mentions (cursorNames p.loops) c = false := by
    intro c hc
    refine List.any_eq_false.2 fun n hn => absurd hn (h.names c hc n)
  have known (n : String) (hn : n ∈ p.names) := Or.inl (b := n ∉ p.bound) (sound.closed n hn)
  rw [Tracer.plan_of_early u v early]
  refine ⟨fun a ha => ?_, fun agrees => Guarded.append ((h.loops v u hv small fun c hc => ?_).mono fun same => ?_)⟩
  · obtain ⟨c, hc, rfl⟩ := List.mem_map.1 ha
    exact ⟨h.checks c hc v u u _, trivial⟩
  · exact agrees _ (List.mem_map_of_mem hc)
  · rw [← same] at small ⊢
    have ready := (forall_acts_plan ((Act.local_ready u _ _).and (Act.local_within u _)) known).2
      (sound.ready_acts hv small)
    rw [Tracer.plan_of_early u v early, List.flatMap_cons, List.flatMap_append] at ready
    refine .of_ready (fun e he a ha => ?_) fun _ => rfl
    exact ready a (List.mem_append_right _ (List.mem_append_right _ (List.mem_flatMap.2 ⟨e, he, ha⟩)))

end Plan

theorem Part.walk_static {parts : List Part} (static : ∀ p ∈ parts, p.isDynamic = false) (u : Wire)
    (strict strict' : Bool) (head offset offset' : Nat) :
    walk strict u head offset parts = walk strict' u head offset' parts := by
  induction parts generalizing head offset offset' with
  | nil => rfl
  | cons p rest ih =>
    obtain ⟨still, others⟩ := List.forall_mem_cons.1 static
    have place (strict : Bool) (offset : Nat) : p.start strict u head offset = head := by simp [start, still]
    rw [walk, walk, place, place]
    exact congrArg _ (ih others _ _ _)

theorem Part.walk_lenient (parts : List Part) (u : Wire) (head offset offset' : Nat) :
    walk false u head offset parts = walk false u head offset' parts := by
  induction parts generalizing head offset offset' with
  | nil => rfl
  | cons p rest ih =>
    have place : p.start false u head offset = p.start false u head offset' := rfl
    rw [walk, walk, place]
    exact congrArg _ (ih _ _ _)

theorem Value.tailSizes_of_static {parts : List Value} (static : anyDynamic parts = false) : tailSizes parts = 0 := by
  have extents := extents_eq parts
  rw [anyDynamic_false static] at extents
  omega

/-- A tuple with one dynamic part: the others stand in place. -/
theorem Part.tuple_lone {bs rest : List Part} {p : Part} (regular : ∀ p ∈ bs, p.Regular)
    (static : ∀ p ∈ bs, p.isDynamic = false) (static' : ∀ p ∈ rest, p.isDynamic = false)
    (dynamic : p.isDynamic = true) (strict : Bool) (u : Wire) :
    tuple strict (bs ++ p :: rest) u = walk false u 0 0 bs ++
      p.decode (u.drop (if strict then (headSizes (bs ++ p :: rest) : Int) else u.word (headSizes bs))) ::
        walk false u (headSizes bs + p.headSize) 0 rest := by
  have still : tailSizes (walk strict u 0 (headSizes (bs ++ p :: rest)) bs) = 0 := by
    refine tailSizes_of_static ?_
    rw [anyDynamic_walk regular, List.any_eq_false]
    exact fun p hp => by simp [static p hp]
  have place (head offset : Nat) : p.start strict u head offset = if strict then (offset : Int) else u.word head := by
    simp [start, dynamic]
  rw [tuple, walk_append _ _ regular, still, Nat.zero_add, Nat.add_zero, walk, place,
    walk_static static u strict false 0 _ 0]
  exact congrArg _ (congrArg _ (walk_static static' u strict false _ _ 0))

namespace Plan

def Quiet (p : Plan) : Prop := p.checks = [] ∧ p.loops = []

section Members
variable {strict : Bool} {ms : List (String × Part × Plan)}

theorem seats_append (slot head : Nat) (ms ms' : List (String × Part × Plan)) :
    seats slot head (ms ++ ms') = seats slot head ms ++
      seats (slot + 32 * ms.length) (head + Part.headSizes (ms.map (·.2.1))) ms' := by
  induction ms generalizing slot head with
  | nil => rfl
  | cons m rest ih =>
    obtain ⟨name, part, plan⟩ := m
    simp only [List.cons_append, seats, ih, List.length_cons, List.map_cons, Part.headSizes]
    congr 3 <;> omega

/-- A static member with a quiet plan adds neither checks nor loops to a draft, and moves no offset. -/
theorem Draft.add_quiet {m : Member} (quiet : ∀ body ∈ m.body, body.1 = false ∧ body.2.Quiet) (d : Draft) :
    (d.add strict m).plan.checks = d.plan.checks ∧ (d.add strict m).plan.loops = d.plan.loops ∧
      (d.add strict m).expected = d.expected := by
  obtain ⟨name, slot, head, body⟩ := m
  cases body with
  | none => exact ⟨rfl, rfl, rfl⟩
  | some body =>
    obtain ⟨dynamic, p⟩ := body
    obtain ⟨rfl, checks, loops⟩ := quiet (dynamic, p) rfl
    replace checks : p.checks = [] := checks
    replace loops : p.loops = [] := loops
    simp [add, memberStart, append, rebased_checks, rebased_loops, checks, loops, Base.loops]

theorem Draft.foldl_quiet (quiet : ∀ m ∈ ms, m.2.1.isDynamic = false ∧ m.2.2.Quiet) (slot head : Nat) (d : Draft) :
    ((seats slot head ms).foldl (Draft.add strict) d).plan.checks = d.plan.checks ∧
      ((seats slot head ms).foldl (Draft.add strict) d).plan.loops = d.plan.loops ∧
        ((seats slot head ms).foldl (Draft.add strict) d).expected = d.expected := by
  induction ms generalizing slot head d with
  | nil => exact ⟨rfl, rfl, rfl⟩
  | cons m rest ih =>
    obtain ⟨name, part, plan⟩ := m
    obtain ⟨here, others⟩ := List.forall_mem_cons.1 quiet
    rw [seats, List.foldl_cons]
    have first := @Draft.add_quiet strict ⟨name, .ofNat slot, .ofNat head,
      if part.isWord then none else some (part.isDynamic, plan)⟩ (fun body hb => by
        cases isWord : part.isWord <;> simp only [isWord, Bool.false_eq_true, if_true, if_false] at hb
        · cases hb
          exact here
        · cases hb) d
    obtain ⟨checks, loops, expected⟩ := ih others (slot + 32) (head + part.headSize) _
    exact ⟨checks.trans first.1, loops.trans first.2.1, expected.trans first.2.2⟩

variable {before after : List (String × Part × Plan)} {name : String} {part : Part} {p : Plan}

def Draft.upTo (calldataHead memoryHead : Term) (before : List (String × Part × Plan)) : Draft :=
  (seats 0 0 before).foldl (Draft.add true) ⟨empty, memoryHead, some calldataHead⟩

def Draft.base (calldataHead memoryHead : Term) (before : List (String × Part × Plan)) : Base :=
  ⟨.literal 0 + calldataHead, (Draft.upTo calldataHead memoryHead before).cursor⟩

theorem ofMembers_lone {calldataHead memoryHead : Term}
    (quietBefore : ∀ m ∈ before, m.2.1.isDynamic = false ∧ m.2.2.Quiet)
    (quietAfter : ∀ m ∈ after, m.2.1.isDynamic = false ∧ m.2.2.Quiet)
    (isDynamic : part.isDynamic = true) (isBody : part.isWord = false) :
    (ofMembers true true memoryHead calldataHead (seats 0 0 (before ++ (name, part, p) :: after))).checks =
        ⟨name ++ ".offset", .load (.ofNat (Part.headSizes (before.map (·.2.1)))), calldataHead⟩ ::
          p.checks.map (Draft.base calldataHead memoryHead before).check ∧
      (ofMembers true true memoryHead calldataHead (seats 0 0 (before ++ (name, part, p) :: after))).loops =
        (Draft.base calldataHead memoryHead before).loops p.loops := by
  obtain ⟨checks, loops, expected⟩ :=
    @Draft.foldl_quiet true before quietBefore 0 0 ⟨empty, memoryHead, some calldataHead⟩
  rw [seats_append, seats, isBody, isDynamic, if_neg Bool.false_ne_true, Nat.zero_add, Nat.zero_add]
  simp only [ofMembers, List.foldl_append, List.foldl_cons]
  obtain ⟨checks', loops', _⟩ := @Draft.foldl_quiet true after quietAfter (32 * before.length + 32)
    (Part.headSizes (before.map (·.2.1)) + part.headSize)
    ((Draft.upTo calldataHead memoryHead before).add true ⟨name, .ofNat (32 * before.length),
      .ofNat (Part.headSizes (before.map (·.2.1))), some (true, p)⟩)
  refine ⟨checks'.trans ?_, loops'.trans ?_⟩
  · simp only [Draft.add, Draft.upTo, expected, memberStart, append, rebased_checks, checks, Draft.base]
    rfl
  · simp only [Draft.add, Draft.upTo, expected, memberStart, append, rebased_loops, loops, Draft.base]
    rfl

/-- A tuple whose one dynamic member is decoded by `p`. By offset words it is read as `lenient`. -/
structure LoneSeat (before after : List (String × Part × Plan)) (name : String) (part lenient : Part) (p : Plan) :
    Prop where
  seated : Seated true (before ++ (name, part, p) :: after)
  quietBefore : ∀ m ∈ before, m.2.1.isDynamic = false ∧ m.2.2.Quiet
  quietAfter : ∀ m ∈ after, m.2.1.isDynamic = false ∧ m.2.2.Quiet
  isDynamic : part.isDynamic = true
  regular : lenient.Regular
  isDynamic' : lenient.isDynamic = true
  lone : p.Lone part.decode lenient.decode

def around (before after : List (String × Part × Plan)) (part : Part) : List Part :=
  before.map (·.2.1) ++ part :: after.map (·.2.1)

namespace LoneSeat
variable {lenient : Part} {u : Wire} {v : Values}

theorem regular_part (s : LoneSeat before after name part lenient p) : part.Regular :=
  s.seated.regular (name, part, p) (by simp)

theorem regular_before (s : LoneSeat before after name part lenient p) : ∀ q ∈ before.map (·.2.1), q.Regular :=
  List.forall_mem_map.2 fun m hm => s.seated.regular m (List.mem_append_left _ hm)

theorem regular_around (s : LoneSeat before after name part lenient p) {q : Part} (regular : q.Regular) :
    ∀ r ∈ around before after q, r.Regular := by
  refine List.forall_mem_append.2 ⟨s.regular_before, List.forall_mem_cons.2 ⟨regular, ?_⟩⟩
  exact List.forall_mem_map.2 fun m hm => s.seated.regular m (List.mem_append_right _ (List.mem_cons_of_mem _ hm))

theorem tuple_around (s : LoneSeat before after name part lenient p) {q : Part} (isDynamic : q.isDynamic = true)
    (strict : Bool) (u : Wire) : Part.tuple strict (around before after q) u =
      Part.walk false u 0 0 (before.map (·.2.1)) ++ q.decode (u.drop (if strict then
        (Part.headSizes (around before after q) : Int) else u.word (Part.headSizes (before.map (·.2.1))))) ::
          Part.walk false u (Part.headSizes (before.map (·.2.1)) + q.headSize) 0 (after.map (·.2.1)) :=
  Part.tuple_lone s.regular_before (List.forall_mem_map.2 fun m hm => (s.quietBefore m hm).1)
    (List.forall_mem_map.2 fun m hm => (s.quietAfter m hm).1) isDynamic strict u

theorem heads_eq (s : LoneSeat before after name part lenient p) :
    Part.headSizes (around before after lenient) = Part.headSizes (around before after part) := by
  simp only [around, Part.headSizes_append, Part.headSizes, s.regular.head_of_dynamic s.isDynamic',
    s.regular_part.head_of_dynamic s.isDynamic]

theorem head_lt (s : LoneSeat before after name part lenient p) :
    Part.headSizes (before.map (·.2.1)) < Part.headSizes (around before after part) := by
  rw [around, Part.headSizes_append, Part.headSizes, s.regular_part.head_of_dynamic s.isDynamic]
  omega

theorem reach (s : LoneSeat before after name part lenient p) (u : Wire) :
    Part.headSizes (around before after part) +
      (lenient.decode (u.drop (u.word (Part.headSizes (before.map (·.2.1)))))).extent ≤
        (Value.tuple (Part.tuple false (around before after lenient) u)).extent := by
  have heads : Value.headSizes (Part.tuple false (around before after lenient) u) = _ :=
    Part.headSizes_walk (s.regular_around s.regular) _ _
  rw [Value.extent, extents_eq, heads, s.heads_eq, s.tuple_around s.isDynamic', tailSizes_append, tailSizes,
    s.regular.isDynamic, s.isDynamic', if_pos rfl]
  simp only [Bool.false_eq_true, if_false]
  omega

theorem read_start {calldataHead : Nat} {memoryHead : Term} (v : Values) (u : Wire) :
    (Draft.base (.ofNat calldataHead) memoryHead before).calldata.read v u = min (calldataHead : Int) Term.top := by
  rw [Draft.base, Term.read_add, Term.read_ofNat, Term.read_literal]
  exact Int.zero_add _

theorem after_before (s : LoneSeat before after name part lenient p) (memoryHead calldataHead : Nat) :
    Draft.After true memoryHead calldataHead (Draft.upTo (.ofNat calldataHead) (.ofNat memoryHead) before)
      (before.map (·.2.1)) := by
  obtain ⟨sound, regular, words, apart⟩ := s.seated
  have seated : Seated true before := ⟨fun m hm => sound m (List.mem_append_left _ hm),
    fun m hm => regular m (List.mem_append_left _ hm), fun m hm => words m (List.mem_append_left _ hm),
    (List.pairwise_append.1 apart).1⟩
  exact Draft.After.seats .start seated fun m _ n _ => by simp [empty, bound, boundOf]

theorem plain_base (s : LoneSeat before after name part lenient p) (memoryHead calldataHead : Nat) :
    (Draft.base (.ofNat calldataHead) (.ofNat memoryHead) before).Plain :=
  ⟨(Term.Plain.literal (by simp)).sum (.ofNat _), (s.after_before memoryHead calldataHead).formed.plain_cursor⟩

theorem names_base (s : LoneSeat before after name part lenient p) (memoryHead calldataHead : Nat) (n : String) :
    n ∉ (Draft.base (.ofNat calldataHead) (.ofNat memoryHead) before).calldata.occurrences ∧
      n ∉ (Draft.base (.ofNat calldataHead) (.ofNat memoryHead) before).memory.occurrences := by
  constructor
  · intro hn
    rcases (Term.mem_occurrences_add _ _).1 hn with hn | hn <;> cases hn
  · intro hn
    have closed := (s.after_before memoryHead calldataHead).formed.closed n (mem_names_memorySize hn)
    have loops : (Draft.upTo (.ofNat calldataHead) (.ofNat memoryHead) before).plan.loops = [] :=
      (Draft.foldl_quiet s.quietBefore 0 0 _).2.1
    rw [Draft.whole, loops] at closed
    simp [cursorNames] at closed

theorem checks (s : LoneSeat before after name part lenient p) (memoryHead : Nat) {c : Check}
    (hc : c ∈ (⟨name ++ ".offset", .load (.ofNat (Part.headSizes (before.map (·.2.1)))),
      .ofNat (Part.headSizes (around before after part))⟩ : Check) :: p.checks.map
        (Draft.base (.ofNat (Part.headSizes (around before after part))) (.ofNat memoryHead) before).check) :
    (∀ n, n ∉ c.actual.occurrences ++ c.expected.occurrences) ∧ ∀ (v : Values) (u u' : Wire) (room : Int),
      (Act.check c v).Ready u (Value.tuple (Part.tuple false (around before after lenient) u')).extent room := by
  rcases List.mem_cons.1 hc with rfl | hc
  · refine ⟨fun n hn => (nomatch hn), fun v u u' room => ?_⟩
    have reach := s.reach u'
    have head := s.head_lt
    refine ⟨⟨.load (.ofNat _), .ofNat _⟩, ⟨_, rfl, .ofNat _, ?_⟩, .ofNat _, ?_⟩
    · rw [Term.read_ofNat]
      omega
    · rw [Term.read_ofNat]
      omega
  · obtain ⟨c, inner, rfl⟩ := List.mem_map.1 hc
    have ready := s.lone.checks c inner
    refine ⟨fun n hn => s.lone.names c inner n ?_, fun v u u' room => ?_⟩
    · have plain := (ready .unset (fun _ => 0) (fun _ => 0) 0).1
      have other := (s.names_base memoryHead (Part.headSizes (around before after part)) n).1
      rw [List.mem_append] at hn ⊢
      exact hn.imp (Base.mem_occurrences_amount plain.1 other).1 (Base.mem_occurrences_amount plain.2 other).1
    · have reach := s.reach u'
      refine Act.ready_rebased_check (s.plain_base _ _) (read_start v u) (.add (.literal _) (.ofNat _)) ?_ ?_
        (ready v _ (u'.drop (u'.word (Part.headSizes (before.map (·.2.1))))) room)
      · unfold Term.top
        omega
      · omega

theorem sizes (s : LoneSeat before after name part lenient p) (u : Wire) : ∃ ds x rest,
    ds = Part.walk true u 0 (Part.headSizes (around before after part)) (before.map (·.2.1)) ∧
      x = lenient.decode (u.drop (u.word (Part.headSizes (before.map (·.2.1))))) ∧
        Part.tuple false (around before after lenient) u = ds ++ x :: rest ∧ x.isWord = false ∧
          (ds ++ x :: rest).length = (around before after part).length ∧
            Value.headSizes (ds ++ x :: rest) = Part.headSizes (around before after part) := by
  have whole := s.tuple_around s.isDynamic' false u
  have before_eq := Part.walk_static (List.forall_mem_map.2 fun m hm => (s.quietBefore m hm).1) u false true 0 0
    (Part.headSizes (around before after part))
  simp only [Bool.false_eq_true, if_false, before_eq] at whole
  refine ⟨_, _, _, rfl, rfl, whole, ?_, ?_, ?_⟩
  · exact Value.isWord_of_dynamic ((s.regular.isDynamic _).trans s.isDynamic')
  · rw [← whole, Part.tuple, Part.length_walk]
    simp [around]
  · rw [← whole, Part.tuple, Part.headSizes_walk (s.regular_around s.regular), s.heads_eq]

theorem tuple_eq (s : LoneSeat before after name part lenient p)
    (offset : u.word (Part.headSizes (before.map (·.2.1))) = Part.headSizes (around before after part))
    (same : part.decode (u.drop (Part.headSizes (around before after part))) =
      lenient.decode (u.drop (Part.headSizes (around before after part)))) :
    Part.tuple true (around before after part) u = Part.tuple false (around before after lenient) u := by
  rw [s.tuple_around s.isDynamic, s.tuple_around s.isDynamic', s.regular.head_of_dynamic s.isDynamic',
    s.regular_part.head_of_dynamic s.isDynamic, if_pos rfl, if_neg Bool.false_ne_true, offset, same]

theorem last_before (s : LoneSeat before after name part lenient p) (memoryHead calldataHead : Term) :
    (Draft.upTo calldataHead memoryHead before).whole.last u v = v := by
  have none : (Draft.upTo calldataHead memoryHead before).whole.loops = [] :=
    (Draft.foldl_quiet s.quietBefore 0 0 _).2.1
  rw [last, none]
  rfl

theorem loops (s : LoneSeat before after name part lenient p) (hv : v.Nonneg)
    (small : ((Value.tuple (Part.tuple false (around before after lenient) u)).size : Int) < Term.top)
    (offset : u.word (Part.headSizes (before.map (·.2.1))) = Part.headSizes (around before after part))
    (agrees : ∀ c ∈ p.checks, (Act.check c v).Agrees (u.drop (Part.headSizes (around before after part)))) :
    Guarded u (Value.tuple (Part.tuple false (around before after lenient) u)).extent
      (Value.tuple (Part.tuple false (around before after lenient) u)).size
      (Value.tuple (Part.tuple true (around before after part) u) =
        Value.tuple (Part.tuple false (around before after lenient) u))
      (Tracer.loops u ((Draft.base (.ofNat (Part.headSizes (around before after part)))
        (.ofNat (32 * (around before after part).length)) before).loops p.loops) v).2 := by
  have reach := s.reach u
  have extent := (Value.tuple (Part.tuple false (around before after lenient) u)).extent_le_size
  have member := s.seated.sound (name, part, p) (by simp)
  obtain ⟨ds, x, rest, hds, hx, whole, isBody, length, heads⟩ := s.sizes u
  have size : (Value.tuple (Part.tuple false (around before after lenient) u)).size =
      32 * (around before after part).length + (bodySizes ds + (x.size + bodySizes rest)) := by
    rw [whole, Value.size, length, bodySizes_append, bodySizes, isBody, if_neg Bool.false_ne_true]
  have bodies : bodySizes (ds ++ x :: rest) = bodySizes ds + (x.size + bodySizes rest) := by
    rw [bodySizes_append, bodySizes, isBody, if_neg Bool.false_ne_true]
  rw [← hx] at reach
  rw [offset] at hx
  have inner := s.lone.loops v (u.drop (Part.headSizes (around before after part))) hv (by rw [← hx]; omega) agrees
  rw [← hx] at inner
  have count : (around before after part).length = (before.map (·.2.1)).length + (x :: rest).length := by
    rw [← length, List.length_append, hds, Part.length_walk]
  have shown : (Draft.upTo (.ofNat (Part.headSizes (around before after part)))
      (.ofNat (32 * (around before after part).length)) before).Shows true v u 0
        (Part.headSizes (around before after part)) ds (x :: rest) := by
    subst hds
    refine (s.after_before _ _).shows hv (Int.le_refl 0) count heads (by omega) (by omega) (.inl ?_)
    rw [bodies]
    omega
  have tails : tailSizes ds = 0 := by
    refine hds ▸ tailSizes_of_static ?_
    rw [Part.anyDynamic_walk s.regular_before, List.any_eq_false]
    exact List.forall_mem_map.2 fun m hm => by simp [(s.quietBefore m hm).1]
  have cursor := shown.cursor
  have ready := (shown.ready (.inl rfl) (by unfold Term.top at small; omega)
    (Value.tuple (Part.tuple false (around before after lenient) u)).extent _ (by omega) (Int.le_refl _)).2.1
  rw [s.last_before] at cursor ready
  have stands : (Draft.base (.ofNat (Part.headSizes (around before after part)))
      (.ofNat (32 * (around before after part).length)) before).Stands u
        (Part.headSizes (around before after part)) (32 * (ds ++ x :: rest).length + bodySizes ds)
          (Value.tuple (Part.tuple false (around before after lenient) u)).extent v := by
    refine ⟨?_, cursor, .add (.literal _) (.ofNat _), ready⟩
    rw [read_start]
    omega
  refine (Guarded.loops_rebased (s.plain_base _ _) (by omega) (by omega) (by omega) (by omega)
    (plain_iff.1 member.plain).2.2.1 (fun n _ => s.names_base _ _ n) stands inner).mono fun same => ?_
  exact congrArg _ (s.tuple_eq offset (same.trans hx))

/-- A tuple with one dynamic member refuses its calldata or takes what its offset words lead to. -/
theorem lone_ofMembers (s : LoneSeat before after name part lenient p) :
    (ofMembers true true (.ofNat (32 * (around before after part).length))
      (.ofNat (Part.headSizes (around before after part))) (seats 0 0 (before ++ (name, part, p) :: after))).Lone
        (fun u => .tuple (Part.tuple true (around before after part) u))
        fun u => .tuple (Part.tuple false (around before after lenient) u) := by
  have isBody : part.isWord = false := by
    rw [← s.regular_part.isWord fun _ => 0]
    exact Value.isWord_of_dynamic ((s.regular_part.isDynamic _).trans s.isDynamic)
  obtain ⟨checks, loops⟩ := @ofMembers_lone before after name part p
    (.ofNat (Part.headSizes (around before after part))) (.ofNat (32 * (around before after part).length))
    s.quietBefore s.quietAfter s.isDynamic isBody
  constructor
  · intro c hc
    exact (s.checks _ (checks ▸ hc)).1
  · intro c hc
    exact (s.checks _ (checks ▸ hc)).2
  · intro v u hv small agrees
    have reach := s.reach u
    have extent := (Value.tuple (Part.tuple false (around before after lenient) u)).extent_le_size
    have head := s.head_lt
    rw [checks, List.forall_mem_cons, List.forall_mem_map] at agrees
    obtain ⟨offset, inner⟩ := agrees
    rw [Act.Agrees, Term.read_load, Term.read_ofNat, Term.read_ofNat, Int.min_eq_left (by omega),
      Int.min_eq_left (by omega)] at offset
    rw [loops]
    refine s.loops hv small offset fun c hc => (Act.agrees_rebased ?_).1 (inner c hc)
    rw [Act.values, read_start]
    exact Int.min_eq_left (by omega)

end LoneSeat

end Members

namespace ElementLoop
variable {part lenient : Part} {element : Plan} {scope : String} {start : Term} {checks : List Check}
variable {cursors : List Cursor} {u : Wire} {w : Values} {n : Nat} {ds rest : List Value} {x : Value}

/-- What follows an element may be exchanged for values with heads of the same size. -/
theorem Comes.exchange (comes : Comes true u part n ds x rest) {rest' : List Value}
    (length : rest'.length = rest.length) (heads : headSizes rest' = headSizes rest) : Comes true u part n ds x rest' := by
  obtain ⟨⟨value, isBody, dynamic, sum, small⟩, count, done, stride⟩ := comes
  refine ⟨⟨value, isBody, dynamic, ?_, small⟩, ?_, done, stride⟩
  · rwa [headSizes_append, headSizes, heads, ← headSizes, ← headSizes_append]
  · rwa [List.length_append, List.length_cons, length, ← List.length_cons, ← List.length_append]

theorem body_checks : (elementBody scope start checks element).checks =
    checks ++ element.checks.map (Base.check ⟨start, .var (scope ++ ".cursor")⟩) := by
  rw [elementBody, append, rebased_checks]
  rfl

theorem body_loops : (elementBody scope start checks element).loops =
    Base.loops ⟨start, .var (scope ++ ".cursor")⟩ element.loops := by
  rw [elementBody, append, rebased_loops]
  rfl

theorem early_body (l : ElementLoop true part element scope start checks cursors)
    (lone : element.Lone part.decode lenient.decode) :
    ∀ c ∈ (elementBody scope start checks element).checks,
      Machine.mentions (cursorNames (elementBody scope start checks element).loops) c = false := by
  have other (n : String) (hn : n ∈ cursorNames element.loops) : n ∉ own scope :=
    fun own => l.apart n own (mem_bound.2 (mem_boundOf_of_cursorNames _ hn))
  rw [body_checks, body_loops, Base.cursorNames_loops, List.forall_mem_append, List.forall_mem_map]
  constructor
  · intro c hc
    refine List.any_eq_false.2 fun n hn found => other n (List.contains_iff_mem.1 found) ?_
    exact l.starts.mem_own (.inr ⟨c, hc, hn⟩)
  · intro c hc
    rw [Base.mentions_check (fun n hn start => other n hn (l.starts.mem_own (.inl start)))
      ((plain_iff.1 l.sound.plain).2.2.2.1 c hc)]
    exact List.any_eq_false.2 fun n hn => absurd hn (lone.names c hc n)

theorem exists_events (l : ElementLoop true part element scope start checks cursors)
    (lone : element.Lone part.decode lenient.decode) (w : Values) (i : Nat) : ∃ others,
    (round u scope cursors (elementBody scope start checks element) i w).2 =
      .checks (elementBody scope start checks element).checks (w.set (scope ++ ".index") i) ::
        ((Tracer.loops u (Base.loops ⟨start, .var (scope ++ ".cursor")⟩ element.loops)
          (w.set (scope ++ ".index") i)).2 ++ others) := by
  rw [round, Tracer.andThen, Tracer.plan_of_early u _ (l.early_body lone), body_loops, List.cons_append,
    List.append_assoc]
  exact ⟨_, rfl⟩

theorem start_of_dynamic (l : ElementLoop true part element scope start checks cursors)
    (isDynamic : part.isDynamic = true) (ds : List Value) :
    part.start true (u.drop 32) (headSizes ds) (n * part.headSize + tailSizes ds) = 32 * n + tailSizes ds := by
  simp [Part.start, isDynamic, l.head_of_dynamic isDynamic, Int.mul_comm]

theorem stands_round (l : ElementLoop true part element scope start checks cursors) (isDynamic : part.isDynamic = true)
    (at_ : At true part.isDynamic scope w n ds) (comes : Comes true u part n ds x rest) {reach : Int}
    (reaches : (32 + (32 * n + tailSizes ds) : Int) ≤ reach)
    (small : (32 + (32 * n + (bodySizes ds + bodySizes rest)) : Int) < 2 ^ 63) :
    Base.Stands ⟨start, .var (scope ++ ".cursor")⟩ u (32 + (32 * n + tailSizes ds))
      (32 + 32 * n + bodySizes ds) reach (w.set (scope ++ ".index") ds.length) ∧
    ∀ c ∈ checks, ∀ room, (Act.check c (w.set (scope ++ ".index") ds.length)).Ready u reach room := by
  have head := l.head_of_dynamic isDynamic
  have tails := tailSizes_le ds
  have read := l.read_start at_ comes
  rw [l.start_of_dynamic isDynamic] at read
  have reaches_start : 32 + (n * part.headSize + tailSizes ds : Nat) ≤ reach := by
    rw [head]
    omega
  have ready := l.ready_start at_ comes (.inl rfl) (by rw [head]; omega) reaches_start
  exact ⟨⟨read, read_cursor at_ _ u, (ready 0).1, .var (cursor_at at_ _) (by omega)⟩,
    fun c hc room => (ready room).2 c hc⟩

theorem ready_round_of_fits (l : ElementLoop true part element scope start checks cursors)
    (isDynamic : part.isDynamic = true) (at_ : At true part.isDynamic scope w n ds)
    (comes : Comes true u part n ds x rest) {reach room : Int}
    (small : (32 + (32 * n + (bodySizes ds + (x.size + bodySizes rest))) : Int) < Term.top)
    (reaches : (32 + (32 * n + (tailSizes ds + x.extent)) : Int) ≤ reach)
    (fits : (32 + (32 * n + (bodySizes ds + (x.size + bodySizes rest))) : Int) ≤ room) :
    ∀ a ∈ (round u scope cursors (elementBody scope start checks element) ds.length w).2.flatMap Event.acts,
      a.Ready u reach room ∧ a.Within u room := by
  have head := l.head_of_dynamic isDynamic
  obtain ⟨bodies_done, bodies_all⟩ := comes.bodySizes_eq
  have tails_done : tailSizes (ds ++ [x]) = tailSizes ds + x.extent := by
    simp [tailSizes_append, tailSizes, comes.next.dynamic, isDynamic]
  have top : (32 + (32 * n + (bodySizes ds + (x.size + bodySizes rest))) : Int) < 2 ^ 63 := by
    unfold Term.top at small
    omega
  have extent := x.extent_le_size
  have placed := l.placed at_ comes (Int.le_refl 0) (.inl (by omega))
  have reaches_end : 32 + ((n * part.headSize : Nat) + tailSizes (ds ++ [x])) ≤ reach := by
    rw [head, tails_done]
    push_cast
    omega
  have fits_end : 32 + (32 * n + bodySizes (ds ++ x :: rest)) ≤ room := by
    rw [bodies_all]
    push_cast
    omega
  have ready := l.ready_round at_ comes placed (.inl rfl) (by omega) reaches_end fits_end
  have good := (l.stretch_round at_ comes placed).good
  refine fun a ha => ⟨ready a ha, (good a ha).within.mono ?_⟩
  rw [length_block, length_ofWord, List.singleton_append, comes.length, bodies_all]
  push_cast
  omega

theorem guarded_round (l : ElementLoop true part element scope start checks cursors)
    (lone : element.Lone part.decode lenient.decode) (isDynamic : part.isDynamic = true)
    (at_ : At true part.isDynamic scope w n ds) {y : Value} (comes : Comes true u part n ds y rest)
    (found : x = lenient.decode ((u.drop 32).drop ((u.drop 32).word (headSizes ds)))) {reach room : Int}
    (small : (32 + (32 * n + (bodySizes ds + (x.size + bodySizes rest))) : Int) < Term.top)
    (reaches : (32 + (32 * n + (tailSizes ds + x.extent)) : Int) ≤ reach)
    (fits : (32 + (32 * n + (bodySizes ds + (x.size + bodySizes rest))) : Int) ≤ room) :
    Guarded u reach room (y = x) (round u scope cursors (elementBody scope start checks element) ds.length w).2 := by
  have tails := tailSizes_le ds
  have extent := x.extent_le_size
  have top : (32 + (32 * n + (bodySizes ds + (x.size + bodySizes rest))) : Int) < 2 ^ 63 := by
    unfold Term.top at small
    omega
  have plain : Base.Plain ⟨start, .var (scope ++ ".cursor")⟩ := ⟨l.starts.plain.1, .var _⟩
  have apart : ∀ m ∈ boundOf element.loops, m ∉ start.occurrences ∧
      m ∉ (Term.var (scope ++ ".cursor")).occurrences := by
    refine fun m hm => ⟨fun h => ?_, fun h => ?_⟩
    · exact l.apart m (l.starts.mem_own (.inl h)) (mem_bound.2 hm)
    · simp only [Term.occurrences, List.mem_singleton] at h
      exact l.apart m (by simp [own, h]) (mem_bound.2 hm)
  obtain ⟨stands, checks_ready⟩ := l.stands_round isDynamic at_ comes (by omega : _ ≤ reach) (by omega)
  obtain ⟨others, events⟩ := l.exists_events (u := u) lone w ds.length
  rw [events]
  refine ⟨?_, fun agrees => Guarded.append ?_⟩
  · -- the element's own checks are those of an element at its canonical place
    unfold Event.Ready Event.acts
    rw [List.forall_mem_map, body_checks, List.forall_mem_append, List.forall_mem_map]
    refine ⟨fun c hc => ⟨checks_ready c hc room, trivial⟩, fun c hc => ⟨?_, trivial⟩⟩
    have ready := lone.checks c hc (w.set (scope ++ ".index") ds.length) (u.drop (32 + (32 * n + tailSizes ds)))
      ((u.drop 32).drop ((u.drop 32).word (headSizes ds))) room
    rw [← found] at ready
    exact Act.ready_rebased_check plain stands.calldata stands.calldata_ready (by omega) (by omega) ready
  · -- once the offset agrees, the element found by it is the one at its canonical place
    unfold Event.Agrees Event.acts at agrees
    rw [List.forall_mem_map, body_checks, List.forall_mem_append, List.forall_mem_map] at agrees
    obtain ⟨offset, inner⟩ := agrees
    have word := Wire.word_of_matches comes.next.offset_small ((l.agrees_offset at_ comes isDynamic rfl).1 offset)
    have there : (u.drop 32).drop ((u.drop 32).word (headSizes ds)) = u.drop (32 + (32 * n + tailSizes ds)) := by
      rw [word, Wire.drop_drop, l.head_of_dynamic isDynamic]
      push_cast
      rw [Int.mul_comm]
    rw [there] at found
    have guarded := lone.loops (w.set (scope ++ ".index") ds.length) (u.drop (32 + (32 * n + tailSizes ds)))
      (at_.nonneg.set (Int.natCast_nonneg _)) (by rw [← found]; omega) fun c hc =>
        (Act.agrees_rebased (b := ⟨start, .var (scope ++ ".cursor")⟩) (a := .check c _) stands.calldata).1 (inner c hc)
    rw [← found] at guarded
    refine (Guarded.loops_rebased plain (by omega) (by omega) (by omega) (by omega) (plain_iff.1 l.sound.plain).2.2.1
      apart stands guarded).mono fun same => ?_
    have value : y = x := by
      rw [← same, comes.next.value, l.start_of_dynamic isDynamic, Wire.drop_drop]
    subst value
    have settled := l.ready_round_of_fits isDynamic at_ comes small reaches fits
    rw [events] at settled
    exact .of_ready (fun e he a ha => settled a
      (List.mem_flatMap.2 ⟨e, List.mem_cons_of_mem _ (List.mem_append_right _ he), ha⟩)) fun _ => rfl

/-- The rounds over elements that are left, where those before them are canonical. -/
theorem guarded_rounds (l : ElementLoop true part element scope start checks cursors)
    (lone : element.Lone part.decode lenient.decode) (isDynamic : part.isDynamic = true)
    (regular : lenient.Regular) (isDynamic' : lenient.isDynamic = true) {all : List Value}
    (small : (32 + (32 * n + bodySizes all) : Int) < Term.top) (count : Nat) (ds : List Value) (w : Values)
    (at_ : At true part.isDynamic scope w n ds) (length : ds.length + count = n)
    (heads : headSizes ds = ds.length * part.headSize)
    (whole : ds ++ Part.walk false (u.drop 32) (headSizes ds) 0 (List.replicate count lenient) = all) :
    Guarded u (32 + (32 * n + tailSizes all)) (32 + (32 * n + bodySizes all))
      (Part.walk true (u.drop 32) (headSizes ds) (n * part.headSize + tailSizes ds) (List.replicate count part) =
        Part.walk false (u.drop 32) (headSizes ds) 0 (List.replicate count lenient))
      (Tracer.rounds (round u scope cursors (elementBody scope start checks element)) count ds.length w).2 := by
  induction count generalizing ds w with
  | zero => rfl
  | succ count ih =>
    have stride : (part.headSize : Int) < Term.top := by
      rw [l.head_of_dynamic isDynamic]
      decide
    obtain ⟨y, later, hlater, walked, heads', comes⟩ := l.comes_of_walk (u := u) at_ stride length heads
    have head := l.head_of_dynamic isDynamic
    have head' := regular.head_of_dynamic isDynamic'
    obtain ⟨x, found⟩ : ∃ x, x = lenient.decode ((u.drop 32).drop ((u.drop 32).word (headSizes ds))) := ⟨_, rfl⟩
    have isBody : x.isWord = false := by
      rw [found]
      exact isWord_of_dynamic ((regular.isDynamic _).trans isDynamic')
    have dynamic : x.isDynamic = true := by rw [found, regular.isDynamic, isDynamic']
    have next : Part.walk false (u.drop 32) (headSizes ds) 0 (List.replicate (count + 1) lenient) =
        x :: Part.walk false (u.drop 32) (headSizes (ds ++ [x])) 0 (List.replicate count lenient) := by
      rw [List.replicate_succ, Part.walk, Part.start, isDynamic', if_pos rfl, if_neg Bool.false_ne_true, ← found,
        headSizes_append, headSizes, headSizes, headSize, dynamic, if_pos rfl, head', Nat.add_zero]
      exact congrArg _ (Part.walk_lenient _ _ _ _ _)
    rw [next] at whole ⊢
    -- The offset of the next element is checked before it is known what follows it.
    have comes' : Comes true u part n ds y
        (Part.walk false (u.drop 32) (headSizes (ds ++ [x])) 0 (List.replicate count lenient)) := by
      apply comes.exchange
      · rw [hlater, Part.length_walk, Part.length_walk, List.length_replicate, List.length_replicate]
      · rw [hlater, Part.headSizes_walk fun p hp => List.eq_of_mem_replicate hp ▸ regular,
          Part.headSizes_walk fun p hp => List.eq_of_mem_replicate hp ▸ l.regular, Tree.headSizes_replicate,
          Tree.headSizes_replicate, head, head']
    have bodies : bodySizes all = bodySizes ds + (x.size + bodySizes (Part.walk false (u.drop 32)
        (headSizes (ds ++ [x])) 0 (List.replicate count lenient))) := by
      rw [← whole, bodySizes_append, bodySizes, isBody, if_neg Bool.false_ne_true]
    have tails : tailSizes all = tailSizes ds + (x.extent + tailSizes (Part.walk false (u.drop 32)
        (headSizes (ds ++ [x])) 0 (List.replicate count lenient))) := by
      rw [← whole, tailSizes_append, tailSizes, dynamic, if_pos rfl]
    rw [Tracer.rounds]
    refine Guarded.append ((l.guarded_round lone isDynamic at_ comes' found (by omega) (by omega) (by omega)).mono
      fun same => ?_)
    subst same
    have placed := l.placed at_ comes' (Int.le_refl 0) (.inl (by omega))
    have step := l.at_round at_ comes' placed (by rw [comes'.bodySizes_eq.1]; push_cast; omega)
    have index : (ds ++ [y]).length = ds.length + 1 := by simp
    have others := ih (ds ++ [y]) _ step (by omega) heads' (by rw [← whole, List.append_assoc, List.singleton_append])
    rw [index] at others
    exact others.mono fun same => by rw [walked, hlater, same]

/-- An array whose elements have one offset each refuses its calldata or takes what its offset words
lead to. -/
theorem lone_overElements (l : ElementLoop true part element scope start checks cursors)
    (lone : element.Lone part.decode lenient.decode) (isDynamic : part.isDynamic = true)
    (regular : lenient.Regular) (isDynamic' : lenient.isDynamic = true) :
    (overElements true part.isDynamic part.headSize scope cursors (elementBody scope start checks element)).Lone
      (fun u => .list (Part.tuple true (List.replicate (u.number 0 32) part) (u.drop 32)))
      fun u => .list (Part.tuple false (List.replicate (u.number 0 32) lenient) (u.drop 32)) where
  names := by simp [overElements, empty]
  checks := by simp [overElements, empty]
  loops v u hv small _ := by
    have head := l.head_of_dynamic isDynamic
    have head' := regular.head_of_dynamic isDynamic'
    have size : (Value.list (Part.tuple false (List.replicate (u.number 0 32) lenient) (u.drop 32))).size = 32 +
        (32 * u.number 0 32 + bodySizes (Part.tuple false (List.replicate (u.number 0 32) lenient) (u.drop 32))) := by
      rw [Value.size, Tree.length_tuple_replicate]
    have extent : (Value.list (Part.tuple false (List.replicate (u.number 0 32) lenient) (u.drop 32))).extent = 32 +
        (32 * u.number 0 32 + tailSizes (Part.tuple false (List.replicate (u.number 0 32) lenient) (u.drop 32))) := by
      rw [Value.extent, extents_eq, Tree.headSizes_tuple_replicate regular, head', Nat.mul_comm]
    have low : u.number 0 32 < 2 ^ 63 := by
      unfold Term.top at small
      omega
    have short : (32 + 32 * u.number 0 32 : Int) ≤ Term.top := by omega
    have whole : [] ++ Part.walk false (u.drop 32) (headSizes []) 0 (List.replicate (u.number 0 32) lenient) =
        Part.tuple false (List.replicate (u.number 0 32) lenient) (u.drop 32) := Part.walk_lenient _ _ _ _ _
    have rounds := l.guarded_rounds lone isDynamic regular isDynamic' (by omega) (u.number 0 32) [] _
      (l.at_start hv short) (Nat.zero_add _) (by simp [headSizes]) whole
    rw [loops_overElements, size, extent]
    push_cast
    refine ⟨?_, fun _ => Guarded.append (.of_ready (fun e he a ha => ?_) fun _ => rounds.mono fun same => ?_)⟩
    · refine List.forall_mem_singleton.2 ⟨⟨plain_elementCount, ready_elementCount (by omega) low, ?_⟩, trivial⟩
      rw [read_elementCount]
      omega
    · have inside := List.mem_flatMap.2 ⟨e, he, ha⟩
      exact ⟨l.ready_started (by omega) low (by omega) a inside,
        forall_acts_start (fun _ _ => trivial) v a inside⟩
    · rw [Part.tuple, Part.tuple, Tree.headSizes_replicate]
      exact congrArg _ (same.trans (Part.walk_lenient _ _ _ _ _))

end ElementLoop

end Plan

end Calldata

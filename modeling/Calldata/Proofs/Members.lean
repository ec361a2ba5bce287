import Calldata.Proofs.Draft

/-!
Tuples. The draft of a body takes the parts of a tuple one by one. After each part the cursor is the
end of the bodies so far, and in strict mode the expected offset is the end of the tails so far.
-/
namespace Calldata
open Cell Value

namespace Value

theorem tailSizes_append (l l' : List Value) : tailSizes (l ++ l') = tailSizes l + tailSizes l' := by
  induction l with
  | nil => simp [tailSizes]
  | cons v rest ih => simp [tailSizes, ih, Nat.add_assoc]

theorem headSizes_append (l l' : List Value) : headSizes (l ++ l') = headSizes l + headSizes l' := by
  induction l with
  | nil => simp [headSizes]
  | cons v rest ih => simp [headSizes, ih, Nat.add_assoc]

theorem aligned_append {u : Wire} {head offset : Nat} (l l' : List Value) :
    Aligned u head offset (l ++ l') ↔
      Aligned u head offset l ∧ Aligned u (head + headSizes l) (offset + tailSizes l) l' := by
  induction l generalizing head offset with
  | nil => simp [Aligned, headSizes, tailSizes]
  | cons v rest ih =>
    rw [List.cons_append, Aligned, Aligned, headSizes, tailSizes, headSize]
    split
    · rw [ih, Nat.add_assoc, Nat.add_assoc]
      tauto
    · rw [ih, Nat.add_assoc, Nat.zero_add]
      tauto

theorem tailSizes_le (parts : List Value) : tailSizes parts ≤ bodySizes parts := by
  induction parts with
  | nil => exact Nat.le_refl _
  | cons v rest ih =>
    have := extent_le_size v
    cases v with
    | word n => simpa [tailSizes, bodySizes, isDynamic, isWord] using ih
    | bytes _ _ | tuple _ | list _ =>
      simp only [tailSizes, bodySizes, isWord, Bool.false_eq_true, if_false]
      split <;> omega

end Value

namespace Plan.Draft
variable {strict : Bool} {memoryHead calldataHead : Nat} {d : Draft} {done : List Part}

/-- What a draft does after the parts with values `ds`, of a tuple that goes on with `rest`. -/
structure Shows (strict : Bool) (d : Draft) (v : Values) (u : Wire) (address : Int)
    (calldataHead : Nat) (ds rest : List Value) : Prop where
  cursor : d.cursor.read (d.whole.last u v) u = 32 * (ds ++ rest).length + bodySizes ds
  expected : strict = true → ∀ t, d.expected = some t →
    t.read (d.whole.last u v) u = calldataHead + tailSizes ds
  good : ∀ a ∈ d.whole.acts u v, a.Good u address (block [] address (ds ++ rest))
  slots : ∀ i : Nat, i < 32 * ds.length → ∃ a ∈ d.whole.acts u v, a.Touches u i
  bodies : ∀ i : Nat, i < bodySizes ds →
    ∃ a ∈ d.whole.acts u v, a.Touches u (32 * (ds ++ rest).length + i)
  spares : ∀ a ∈ d.whole.acts u v,
    a.Spares d.plan.lengths u (FirmIn 0 (32 * (ds ++ rest).length) (ds ++ rest))
  agrees : (∀ a ∈ d.whole.acts u v, a.Agrees u) ↔ (strict = true → Aligned u 0 calldataHead ds)
  ready : strict = true ∨ Aligned u 0 calldataHead ds → 32 * (ds ++ rest).length + bodySizes (ds ++ rest) < 2 ^ 63 →
    ∀ reach room : Int, calldataHead + tailSizes ds ≤ reach →
      32 * (ds ++ rest).length + bodySizes (ds ++ rest) ≤ room →
      (∀ a ∈ d.whole.acts u v, a.Ready u reach room) ∧
        d.cursor.Ready (d.whole.last u v) u reach ∧
          ∀ t, d.expected = some t → t.Ready (d.whole.last u v) u reach

section Word
variable {v : Values} {u : Wire} {address : Int} {ds rest : List Value} {n : Nat}

theorem forall_acts_add_word {P : Act → Prop} (hP : Act.Local P) (name : String) (slot head : Term) :
    (∀ a ∈ (d.add strict ⟨name, slot, head, none⟩).whole.acts u v, P a) ↔
      (∀ a ∈ d.whole.acts u v, P a) ∧
        P (.copy ⟨slot, head, .words 1, [name]⟩ (d.whole.last u v)) := by
  rw [whole_add_word, forall_acts_append hP (by simp [bound, boundOf, empty])]
  simp [acts, inner, level, last, empty, Tracer.loops, Tracer.done]

theorem exists_acts_add_word {P : Act → Prop} (hP : Act.Local P) (name : String) (slot head : Term) :
    (∃ a ∈ (d.add strict ⟨name, slot, head, none⟩).whole.acts u v, P a) ↔
      (∃ a ∈ d.whole.acts u v, P a) ∨
        P (.copy ⟨slot, head, .words 1, [name]⟩ (d.whole.last u v)) := by
  rw [whole_add_word, exists_acts_append hP (by simp [bound, boundOf, empty])]
  simp [acts, inner, level, last, empty, Tracer.loops, Tracer.done]

theorem Shows.add_word (shown : d.Shows strict v u address calldataHead ds (.word n :: rest))
    (name : String) (hn : (u.drop (headSizes ds)).Matches (ofWord n))
    (slots_small : 32 * (ds.length : Int) < Term.top) (heads_small : (headSizes ds : Int) < Term.top)
    (heads_le : headSizes ds ≤ calldataHead) :
    (d.add strict ⟨name, .ofNat (32 * ds.length), .ofNat (headSizes ds), none⟩).Shows strict v u
      address calldataHead (ds ++ [.word n]) rest := by
  have whole : ds ++ [.word n] ++ rest = ds ++ .word n :: rest := by simp
  have bodies_eq : bodySizes (ds ++ [.word n]) = bodySizes ds := by
    simp [bodySizes_append, bodySizes, isWord]
  have tails_eq : tailSizes (ds ++ [.word n]) = tailSizes ds := by
    simp [tailSizes_append, tailSizes, isDynamic]
  have aligned_eq : Aligned u 0 calldataHead (ds ++ [.word n]) ↔ Aligned u 0 calldataHead ds := by
    simp [aligned_append, Aligned, isDynamic, cells, hn]
  have slot_read : (Term.ofNat (32 * ds.length)).read (d.whole.last u v) u = 32 * ds.length := by
    rw [Term.read_ofNat]
    omega
  have head_read : (Term.ofNat (headSizes ds)).read (d.whole.last u v) u = headSizes ds := by
    rw [Term.read_ofNat]
    omega
  have word_read := Term.read_word (d.whole.last u v) u
  constructor
  · rw [whole, bodies_eq]
    exact shown.cursor
  · rw [tails_eq]
    exact shown.expected
  · rw [whole, forall_acts_add_word (Act.local_good _ _ _)]
    refine ⟨shown.good, Act.good_copy_word ?_ word_read ?_⟩
    · rw [slot_read]
      simp
    · rwa [head_read]
  · intro i hi
    rw [exists_acts_add_word (Act.local_touches _ _)]
    rw [List.length_append, List.length_singleton] at hi
    by_cases old : i < 32 * ds.length
    · exact .inl (shown.slots i old)
    · refine .inr ?_
      simp only [Act.Touches, slot_read, word_read]
      omega
  · intro i hi
    rw [whole, exists_acts_add_word (Act.local_touches _ _)]
    exact .inl (shown.bodies i (bodies_eq ▸ hi))
  · rw [whole, forall_acts_add_word (Act.local_spares _ _ _)]
    constructor
    · intro a ha
      refine (shown.spares a ha).mono (lengths_of_bound ?_)
      rw [bound_add_word]
      exact fun n => id
    · intro _ place low high
      rw [slot_read] at low high
      rw [word_read] at high
      exact not_firmIn_word rfl (by omega) (by omega) (by omega)
  · rw [forall_acts_add_word (Act.local_agrees _), aligned_eq]
    simpa [Act.Agrees] using shown.agrees
  · intro found small reach room reaches fits
    rw [whole] at small fits
    rw [tails_eq] at reaches
    obtain ⟨acts_ready, others⟩ := shown.ready (found.imp_right aligned_eq.1) small reach room reaches fits
    rw [forall_acts_add_word (Act.local_ready _ _ _)]
    refine ⟨⟨acts_ready, ⟨.ofNat _, .ofNat _, .ofNat _⟩, .ofNat _, .ofNat _, .ofNat _, ?_⟩, others⟩
    rw [head_read]
    omega

end Word

section Body
variable {v : Values} {u : Wire} {address : Int} {ds rest : List Value} {x : Value}
variable {p : Plan} {part : Part} {name : String} {slot head start : Term} {checks : List Check}

theorem last_add_body
    (eq : memberStart strict part.isDynamic head (.literal 0) d.expected name = (start, checks)) :
    (d.add strict ⟨name, slot, head, some (part.isDynamic, p)⟩).whole.last u v =
      (p.rebased start d.cursor).last u (d.whole.last u v) := by
  rw [whole_add_body _ _ _ _ p eq]
  show (append _ _).last u v = _
  rw [(inner_append _ _ u v).2, (inner_append _ _ u v).2]
  rfl

theorem forall_acts_add_body {P : Act → Prop} (hP : Act.Local P) (formed : d.Formed strict)
    (eq : memberStart strict part.isDynamic head (.literal 0) d.expected name = (start, checks))
    (starts : Starts strict d part.isDynamic head name start checks)
    (noSlot : slot.occurrences = []) (noHead : head.occurrences = [])
    (apart : ∀ n ∈ p.bound, n ∉ d.plan.bound) :
    (∀ a ∈ (d.add strict ⟨name, slot, head, some (part.isDynamic, p)⟩).whole.acts u v, P a) ↔
      (∀ a ∈ d.whole.acts u v, P a) ∧ (∀ c ∈ checks, P (.check c (d.whole.last u v))) ∧
        P (.point ⟨slot, d.cursor, some name⟩ (d.whole.last u v)) ∧
          ∀ a ∈ (p.rebased start d.cursor).acts u (d.whole.last u v), P a := by
  have apart' : ∀ n ∈ (append d.whole (d.opening name slot checks)).names,
      n ∉ (p.rebased start d.cursor).bound := by
    intro n hn found
    rw [rebased, Base.bound_plan] at found
    have own : n ∈ d.whole.names := (names_append hn).elim id (starts.names_opening noSlot noHead)
    exact apart n found (mem_bound.2 (mem_boundOf_of_cursorNames _ (formed.closed n own)))
  rw [whole_add_body _ _ _ _ p eq]
  show (∀ a ∈ (append _ _).acts u v, P a) ↔ _
  rw [forall_acts_append hP apart', forall_acts_append hP (by simp [opening, bound, boundOf, empty]),
    (inner_append _ _ u v).2]
  have opened : (∀ a ∈ (d.opening name slot checks).acts u (d.whole.last u v), P a) ↔
      (∀ c ∈ checks, P (.check c (d.whole.last u v))) ∧
        P (.point ⟨slot, d.cursor, some name⟩ (d.whole.last u v)) := by
    simp [opening, acts, inner, level, last, empty, Tracer.loops, Tracer.done, or_imp, forall_and]
  rw [opened, and_assoc, and_assoc]
  rfl

theorem exists_acts_add_body {P : Act → Prop} (hP : Act.Local P) (formed : d.Formed strict)
    (eq : memberStart strict part.isDynamic head (.literal 0) d.expected name = (start, checks))
    (starts : Starts strict d part.isDynamic head name start checks)
    (noSlot : slot.occurrences = []) (noHead : head.occurrences = [])
    (apart : ∀ n ∈ p.bound, n ∉ d.plan.bound)
    (found : (∃ a ∈ d.whole.acts u v, P a) ∨
      P (.point ⟨slot, d.cursor, some name⟩ (d.whole.last u v)) ∨
        ∃ a ∈ (p.rebased start d.cursor).acts u (d.whole.last u v), P a) :
    ∃ a ∈ (d.add strict ⟨name, slot, head, some (part.isDynamic, p)⟩).whole.acts u v, P a := by
  by_contra none
  obtain ⟨old, _, pointer, new⟩ := (forall_acts_add_body hP.not formed eq starts noSlot noHead apart).1
    fun a ha h => none ⟨a, ha, h⟩
  rcases found with ⟨a, ha, h⟩ | h | ⟨a, ha, h⟩
  · exact old a ha h
  · exact pointer h
  · exact new a ha h

theorem Starts.read {h offset : Nat} {w : Values} (heads_small : (h : Int) < Term.top)
    (starts : Starts strict d part.isDynamic (.ofNat h) name start checks)
    (expected : strict = true → ∀ t, d.expected = some t → t.read w u = offset) :
    start.read w u = part.start strict u h offset := by
  have head_read : (Term.ofNat h).read w u = h := by
    rw [Term.read_ofNat]
    omega
  cases starts with
  | inPlace dynamic => simp [Part.start, dynamic, head_read]
  | behindOffset dynamic lenient =>
    simp [Term.read_add, Term.read_load, head_read, Term.read_literal, Part.start, dynamic, lenient]
  | canonical dynamic hs he =>
    simp [Term.read_add, expected hs _ he, Term.read_literal, Part.start, dynamic, hs]

theorem aligned_singleton {h offset : Nat} :
    Aligned u h offset [x] ↔ (x.isDynamic = true → (u.drop h).Matches (ofWord offset)) ∧
      (u.drop (if x.isDynamic then offset else h : Nat)).Matches x.cells := by
  cases dynamic : x.isDynamic <;> simp [Aligned, dynamic]

structure Next (strict : Bool) (u : Wire) (calldataHead : Nat) (ds : List Value) (part : Part)
    (x : Value) (rest : List Value) : Prop where
  value : x = part.decode
    (u.drop (part.start strict u (headSizes ds) (calldataHead + tailSizes ds : Nat)))
  isBody : x.isWord = false
  dynamic : x.isDynamic = part.isDynamic
  heads : headSizes (ds ++ x :: rest) = calldataHead
  offset_small : calldataHead + tailSizes ds < 256 ^ 32

namespace Next

theorem head_le (next : Next strict u calldataHead ds part x rest) :
    headSizes ds + x.headSize ≤ calldataHead := by
  have := next.heads
  rw [headSizes_append, headSizes] at this
  omega

/-- A part found in its place is decoded from there, and in strict mode every part is. -/
theorem start_eq (next : Next strict u calldataHead ds part x rest)
    (found : strict = true ∨ Aligned u (headSizes ds) (calldataHead + tailSizes ds) [x]) :
    part.start strict u (headSizes ds) (calldataHead + tailSizes ds) =
        (if x.isDynamic then calldataHead + tailSizes ds else headSizes ds : Nat) ∧
      (strict = true ∨
        (u.drop (part.start strict u (headSizes ds) (calldataHead + tailSizes ds))).Matches x.cells) := by
  have place : part.start strict u (headSizes ds) (calldataHead + tailSizes ds) =
      (if x.isDynamic then calldataHead + tailSizes ds else headSizes ds : Nat) := by
    rw [Part.start, ← next.dynamic]
    cases dynamic : x.isDynamic with
    | false => simp
    | true =>
      cases strict with
      | true => simp
      | false =>
        have offset := (aligned_singleton.1 (found.resolve_left (by simp))).1 dynamic
        simpa using Wire.word_of_matches next.offset_small offset
  exact ⟨place, found.imp_right fun aligned => place ▸ (aligned_singleton.1 aligned).2⟩

theorem reach_le (next : Next strict u calldataHead ds part x rest) :
    (if x.isDynamic then calldataHead + tailSizes ds else headSizes ds) + x.extent ≤
      calldataHead + tailSizes (ds ++ [x]) := by
  have := next.head_le
  rw [tailSizes_append, tailSizes, tailSizes]
  rw [headSize] at this
  cases dynamic : x.isDynamic <;> simp only [dynamic, Bool.false_eq_true, if_true, if_false] at this ⊢ <;>
    omega

end Next

theorem Next.agrees_iff (next : Next strict u calldataHead ds part x rest) {w : Values}
    (heads_small : (calldataHead : Int) < Term.top)
    (starts : Starts strict d part.isDynamic (.ofNat (headSizes ds)) name start checks)
    (expected : strict = true → ∀ t, d.expected = some t → t.read w u = calldataHead + tailSizes ds) :
    (∀ c ∈ checks, (Act.check c w).Agrees u) ∧ (strict = true →
        (u.drop (part.start strict u (headSizes ds) (calldataHead + tailSizes ds))).Matches x.cells) ↔
      (strict = true → Aligned u (headSizes ds) (calldataHead + tailSizes ds) [x]) := by
  have head_le := next.head_le
  cases starts with
  | inPlace dynamic => simp [aligned_singleton, next.dynamic, dynamic, Part.start]
  | behindOffset dynamic lenient => simp [lenient]
  | @canonical dynamic hs e he =>
    have offset : (Act.check ⟨name ++ ".offset", .load (.ofNat (headSizes ds)), e⟩ w).Agrees u ↔
        (u.drop (headSizes ds)).Matches (ofWord (calldataHead + tailSizes ds)) := by
      rw [Act.Agrees, Term.read_load, Term.read_ofNat, expected hs e he, Int.min_eq_left (by omega)]
      exact ⟨Wire.matches_of_word, Wire.word_of_matches next.offset_small⟩
    simp [offset, aligned_singleton, next.dynamic, dynamic, hs, Part.start]

theorem Next.ready_start (next : Next strict u calldataHead ds part x rest) {w : Values} {reach : Int}
    (heads_small : (calldataHead : Int) < Term.top)
    (starts : Starts strict d part.isDynamic (.ofNat (headSizes ds)) name start checks)
    (found : strict = true ∨ Aligned u (headSizes ds) (calldataHead + tailSizes ds) [x])
    (small : calldataHead + tailSizes ds < 2 ^ 63) (reaches : calldataHead + tailSizes ds ≤ reach)
    (expected : strict = true → ∀ t, d.expected = some t → t.read w u = calldataHead + tailSizes ds)
    (ready : ∀ t, d.expected = some t → t.Ready w u reach ∧ t.Plain) (room : Int) :
    start.Ready w u reach ∧ ∀ c ∈ checks, (Act.check c w).Ready u reach room := by
  have head_le := next.head_le
  have low (dynamic : part.isDynamic = true) : (Term.ofNat (headSizes ds)).read w u < reach := by
    rw [headSize, next.dynamic.trans dynamic, if_pos rfl] at head_le
    rw [Term.read_ofNat]
    omega
  cases starts with
  | inPlace dynamic => exact ⟨.ofNat _, by simp⟩
  | behindOffset dynamic lenient =>
    have aligned := found.resolve_left (by simp [lenient])
    have offset := (aligned_singleton.1 aligned).1 (next.dynamic.trans dynamic)
    refine ⟨Term.Ready.add (.literal _) (.load (.ofNat _) (low dynamic) ?_), by simp⟩
    rw [Term.read_ofNat, Int.min_eq_left (by omega), Wire.word_of_matches next.offset_small offset]
    omega
  | @canonical dynamic hs e he =>
    obtain ⟨re, plain⟩ := ready e he
    refine ⟨Term.Ready.add (.literal _) re, ?_⟩
    simp only [List.mem_singleton, forall_eq, Act.Ready, expected hs e he]
    exact ⟨⟨.load (.ofNat _), plain⟩, ⟨_, rfl, .ofNat _, low dynamic⟩, re, reaches⟩

abbrev addBody (strict : Bool) (d : Draft) (ds : List Value) (part : Part) (name : String) (p : Plan) : Draft :=
  d.add strict ⟨name, .ofNat (32 * ds.length), .ofNat (headSizes ds), some (part.isDynamic, p)⟩

/-- What a draft did so far, and the part with a body that it takes next. -/
structure Takes (strict : Bool) (d : Draft) (v : Values) (u : Wire) (address : Int) (calldataHead : Nat)
    (ds : List Value) (part : Part) (x : Value) (rest : List Value) (name : String) (p : Plan)
    (start : Term) (checks : List Check) : Prop where
  shown : d.Shows strict v u address calldataHead ds (x :: rest)
  formed : d.Formed strict
  next : Next strict u calldataHead ds part x rest
  heads_small : (calldataHead : Int) < Term.top
  slots_small : 32 * ((ds ++ x :: rest).length : Int) < Term.top
  apart : ∀ n ∈ p.bound, n ∉ d.plan.bound
  eq : memberStart strict part.isDynamic (.ofNat (headSizes ds)) (.literal 0) d.expected name = (start, checks)
  starts : Starts strict d part.isDynamic (.ofNat (headSizes ds)) name start checks
  placed : p.Placed strict start d.cursor (d.whole.last u v) u address x

theorem Next.read_start (next : Next strict u calldataHead ds part x rest)
    (shown : d.Shows strict v u address calldataHead ds (x :: rest))
    (heads_small : (calldataHead : Int) < Term.top)
    (starts : Starts strict d part.isDynamic (.ofNat (headSizes ds)) name start checks) :
    start.read (d.whole.last u v) u = part.start strict u (headSizes ds) (calldataHead + tailSizes ds) := by
  have head_le := next.head_le
  exact starts.read (by omega) (by simpa using shown.expected)

namespace Takes

theorem bodySizes_eq (t : Takes strict d v u address calldataHead ds part x rest name p start checks) :
    bodySizes (ds ++ [x]) = bodySizes ds + x.size := by
  simp [bodySizes_append, bodySizes, t.next.isBody]

theorem forall_acts (t : Takes strict d v u address calldataHead ds part x rest name p start checks)
    {P : Act → Prop} (hP : Act.Local P) :
    (∀ a ∈ (d.addBody strict ds part name p).whole.acts u v, P a) ↔
      (∀ a ∈ d.whole.acts u v, P a) ∧ (∀ c ∈ checks, P (.check c (d.whole.last u v))) ∧
        P (.point ⟨.ofNat (32 * ds.length), d.cursor, some name⟩ (d.whole.last u v)) ∧
          ∀ a ∈ (p.rebased start d.cursor).acts u (d.whole.last u v), P a :=
  forall_acts_add_body hP t.formed t.eq t.starts rfl rfl t.apart

theorem read_slot (t : Takes strict d v u address calldataHead ds part x rest name p start checks) :
    (Term.ofNat (32 * ds.length)).read (d.whole.last u v) u = 32 * ds.length := by
  have small := t.slots_small
  rw [List.length_append] at small
  rw [Term.read_ofNat]
  omega

theorem kept (t : Takes strict d v u address calldataHead ds part x rest name p start checks) {e : Term}
    (h : ∀ n ∈ e.occurrences, n ∈ d.plan.bound) :
    ∀ n ∈ e.occurrences, (p.rebased start d.cursor).last u (d.whole.last u v) n = d.whole.last u v n := by
  refine fun n hn => last_keeps fun found => ?_
  rw [rebased, Base.bound_plan] at found
  exact t.apart n found (h n hn)

theorem cursor_kept (t : Takes strict d v u address calldataHead ds part x rest name p start checks) :
    ∀ n ∈ d.cursor.occurrences, (p.rebased start d.cursor).last u (d.whole.last u v) n =
      d.whole.last u v n := t.kept fun _ => t.formed.bound_of_cursor

theorem expected_kept (t : Takes strict d v u address calldataHead ds part x rest name p start checks)
    {e : Term} (he : d.expected = some e) :
    ∀ n ∈ e.occurrences, (p.rebased start d.cursor).last u (d.whole.last u v) n =
      d.whole.last u v n := t.kept fun _ => t.formed.bound_of_expected he

theorem cursor_eq (t : Takes strict d v u address calldataHead ds part x rest name p start checks) :
    (d.addBody strict ds part name p).cursor = d.cursor + (p.rebased start d.cursor).memorySize :=
  congrArg Plan.memorySize (whole_add_body _ _ _ _ p t.eq)

theorem expected_eq (t : Takes strict d v u address calldataHead ds part x rest name p start checks) :
    (d.addBody strict ds part name p).expected = d.following part.isDynamic (p.rebased start d.cursor) :=
  congrArg Plan.calldataSize (whole_add_body _ _ _ _ p t.eq)

theorem cursor (t : Takes strict d v u address calldataHead ds part x rest name p start checks) :
    (d.addBody strict ds part name p).cursor.read ((d.addBody strict ds part name p).whole.last u v) u =
      32 * (ds ++ [x] ++ rest).length + bodySizes (ds ++ [x]) := by
  rw [last_add_body t.eq, t.cursor_eq, Term.read_add, Term.read_congr t.cursor_kept, t.shown.cursor,
    t.placed.size, ← List.append_cons, t.bodySizes_eq]
  omega

theorem expected (t : Takes strict d v u address calldataHead ds part x rest name p start checks)
    (hs : strict = true) {e : Term} (he : (d.addBody strict ds part name p).expected = some e) :
    e.read ((d.addBody strict ds part name p).whole.last u v) u = calldataHead + tailSizes (ds ++ [x]) := by
  rw [t.expected_eq] at he
  rw [last_add_body t.eq, tailSizes_append, tailSizes, tailSizes, t.next.dynamic]
  obtain ⟨old, ho, ⟨static, rfl⟩ | ⟨dynamic, size, hsize, rfl⟩⟩ := following_eq_some he
  · rw [Term.read_congr (t.expected_kept ho), t.shown.expected hs _ ho, static]
    simp
  · rw [Term.read_add, Term.read_congr (t.expected_kept ho), t.shown.expected hs _ ho,
      t.placed.extent _ hsize, dynamic]
    simp [Int.add_assoc]

theorem good (t : Takes strict d v u address calldataHead ds part x rest name p start checks) :
    ∀ a ∈ (d.addBody strict ds part name p).whole.acts u v,
      a.Good u address (block [] address (ds ++ [x] ++ rest)) := by
  rw [← List.append_cons, t.forall_acts (Act.local_good _ _ _)]
  refine ⟨t.shown.good, fun _ _ => trivial, Act.good_point t.next.isBody ?_ ?_, ?_⟩
  · rw [t.read_slot]
    simp
  · rw [t.shown.cursor]
    simp
  · obtain ⟨left, right, length, image⟩ := block_body [] address ds t.next.isBody rest
    rw [image]
    refine t.placed.good left right ?_
    rw [t.shown.cursor, length]
    simp

theorem slots (t : Takes strict d v u address calldataHead ds part x rest name p start checks) {i : Nat}
    (hi : i < 32 * (ds ++ [x]).length) :
    ∃ a ∈ (d.addBody strict ds part name p).whole.acts u v, a.Touches u i := by
  rw [List.length_append, List.length_singleton] at hi
  refine exists_acts_add_body (Act.local_touches _ _) t.formed t.eq t.starts rfl rfl t.apart ?_
  by_cases old : i < 32 * ds.length
  · exact .inl (t.shown.slots i old)
  · refine .inr (.inl ?_)
    simp only [Act.Touches, t.read_slot]
    omega

theorem bodies (t : Takes strict d v u address calldataHead ds part x rest name p start checks) {i : Nat}
    (hi : i < bodySizes (ds ++ [x])) : ∃ a ∈ (d.addBody strict ds part name p).whole.acts u v,
      a.Touches u (32 * (ds ++ [x] ++ rest).length + i) := by
  rw [t.bodySizes_eq] at hi
  rw [← List.append_cons]
  refine exists_acts_add_body (Act.local_touches _ _) t.formed t.eq t.starts rfl rfl t.apart ?_
  by_cases old : i < bodySizes ds
  · exact .inl (t.shown.bodies i old)
  · refine .inr (.inr ?_)
    have touched := t.placed.covers (i - bodySizes ds) (by omega)
    rwa [t.shown.cursor, Int.add_assoc, ← Int.natCast_add, Nat.add_sub_cancel' (by omega)] at touched

theorem spares (t : Takes strict d v u address calldataHead ds part x rest name p start checks) :
    ∀ a ∈ (d.addBody strict ds part name p).whole.acts u v,
      a.Spares (d.addBody strict ds part name p).plan.lengths u
        (FirmIn 0 (32 * (ds ++ [x] ++ rest).length) (ds ++ [x] ++ rest)) := by
  rw [← List.append_cons, t.forall_acts (Act.local_spares _ _ _)]
  have bound_eq := bound_add_body strict d name (.ofNat (32 * ds.length)) (.ofNat (headSizes ds))
    part.isDynamic p
  refine ⟨fun a ha => (t.shown.spares a ha).mono (lengths_of_bound ?_), fun _ _ => trivial, trivial,
    fun a ha => (t.placed.spares _ ?_ a ha).mono (lengths_of_bound ?_)⟩
  · rw [bound_eq]
    exact fun n => List.mem_append_left _
  · intro place low high firm
    rw [t.shown.cursor] at firm
    exact firm.body t.next.isBody (by omega) low high
  · rw [bound_eq]
    exact fun n => List.mem_append_right _

theorem agrees (t : Takes strict d v u address calldataHead ds part x rest name p start checks) :
    (∀ a ∈ (d.addBody strict ds part name p).whole.acts u v, a.Agrees u) ↔
      (strict = true → Aligned u 0 calldataHead (ds ++ [x])) := by
  rw [t.forall_acts (Act.local_agrees _), t.shown.agrees, t.placed.agrees, aligned_append,
    t.next.read_start t.shown t.heads_small t.starts, forall_and, Nat.zero_add,
    ← t.next.agrees_iff t.heads_small t.starts t.shown.expected]
  simp only [Act.Agrees, true_and]

theorem ready (t : Takes strict d v u address calldataHead ds part x rest name p start checks)
    (found : strict = true ∨ Aligned u 0 calldataHead (ds ++ [x]))
    (small : 32 * (ds ++ [x] ++ rest).length + bodySizes (ds ++ [x] ++ rest) < 2 ^ 63) {reach room : Int}
    (reaches : calldataHead + tailSizes (ds ++ [x]) ≤ reach)
    (fits : 32 * (ds ++ [x] ++ rest).length + bodySizes (ds ++ [x] ++ rest) ≤ room) :
    (∀ a ∈ (d.addBody strict ds part name p).whole.acts u v, a.Ready u reach room) ∧
      (d.addBody strict ds part name p).cursor.Ready ((d.addBody strict ds part name p).whole.last u v) u reach ∧
        ∀ e, (d.addBody strict ds part name p).expected = some e →
          e.Ready ((d.addBody strict ds part name p).whole.last u v) u reach := by
  rw [← List.append_cons] at small fits
  rw [aligned_append, Nat.zero_add] at found
  have reach_le := t.next.reach_le
  have tails_le : calldataHead + tailSizes ds ≤ calldataHead + tailSizes (ds ++ [x]) := by
    rw [tailSizes_append]
    omega
  have extents_le := extents_le (ds ++ x :: rest)
  rw [extents_eq, t.next.heads, tailSizes_append] at extents_le
  obtain ⟨old, cursor_ready, expected_ready⟩ := t.shown.ready (found.imp_right And.left) small reach room
    (by omega) fits
  replace found := found.imp_right And.right
  obtain ⟨start_ready, checks_ready⟩ := t.next.ready_start t.heads_small t.starts found (by omega)
    (by omega) t.shown.expected (fun e he => ⟨expected_ready e he, t.formed.plain_expected he⟩) room
  obtain ⟨place, found⟩ := t.next.start_eq found
  have read_start := t.next.read_start t.shown t.heads_small t.starts
  rw [bodySizes_append, bodySizes_cons, bodySize, t.next.isBody, if_neg (by simp)] at small fits
  obtain ⟨inner, size_ready, extent_ready⟩ := t.placed.ready (read_start ▸ found) (by omega) reach room
    start_ready cursor_ready (by rw [read_start, place]; omega) (by rw [t.shown.cursor]; omega)
  rw [t.forall_acts (Act.local_ready _ _ _), last_add_body t.eq, t.cursor_eq, t.expected_eq]
  refine ⟨⟨old, checks_ready, ⟨⟨.ofNat _, t.formed.plain_cursor⟩, .ofNat _, cursor_ready, ?_⟩, inner⟩,
    ((Term.ready_congr t.cursor_kept).2 cursor_ready).add size_ready, fun e he => ?_⟩
  · rw [t.shown.cursor]
    omega
  · obtain ⟨old, ho, ⟨_, rfl⟩ | ⟨_, size, hs, rfl⟩⟩ := following_eq_some he
    · exact (Term.ready_congr (t.expected_kept ho)).2 (expected_ready _ ho)
    · exact ((Term.ready_congr (t.expected_kept ho)).2 (expected_ready _ ho)).add (extent_ready _ hs)

theorem shows_addBody (t : Takes strict d v u address calldataHead ds part x rest name p start checks) :
    (d.addBody strict ds part name p).Shows strict v u address calldataHead (ds ++ [x]) rest where
  cursor := t.cursor
  expected hs _ := t.expected hs
  good := t.good
  slots _ := t.slots
  bodies _ := t.bodies
  spares := t.spares
  agrees := t.agrees
  ready found small _ _ := t.ready found small

end Takes

theorem Shows.add_body (shown : d.Shows strict v u address calldataHead ds (x :: rest))
    (formed : d.Formed strict) (next : Next strict u calldataHead ds part x rest)
    (heads_small : (calldataHead : Int) < Term.top)
    (slots_small : 32 * ((ds ++ x :: rest).length : Int) < Term.top)
    (sound : p.Sound strict part) (apart : ∀ n ∈ p.bound, n ∉ d.plan.bound) (hv : v.Nonneg)
    (address0 : 0 ≤ address) (fits : (x.size : Int) < Term.top ∨ ∃ bound < Term.top,
      ∀ a ∈ (d.addBody strict ds part name p).whole.acts u v, a.Within u bound) :
    (d.addBody strict ds part name p).Shows strict v u address calldataHead (ds ++ [x]) rest := by
  obtain ⟨start, checks, eq, starts⟩ := formed.starts part.isDynamic (.ofNat (headSizes ds)) name
  have read_start := next.read_start shown heads_small starts
  have apart' : ∀ n ∈ p.bound, n ∉ start.occurrences ∧ n ∉ d.cursor.occurrences := by
    refine fun n hn => ⟨fun h => ?_, fun h => apart n hn (formed.bound_of_cursor h)⟩
    exact apart n hn (mem_bound.2 (mem_boundOf_of_cursorNames _
      (formed.closed n (starts.mem_names rfl (.inl h)))))
  have placed : p.Placed strict start d.cursor (d.whole.last u v) u address x := by
    rw [next.value, ← read_start]
    refine sound.placed (starts.plain formed.plain (.ofNat _)).1 formed.plain_cursor apart'
      (nonneg_last formed.plain hv) address0 ?_
    rw [read_start, ← next.value]
    exact Act.fits_of_fits _ fits fun bound within =>
      ((forall_acts_add_body (Act.local_within _ _) formed eq starts rfl rfl apart).1 within).2.2.2
  exact Takes.shows_addBody
    { shown, formed, next, heads_small, slots_small, apart, eq, starts, placed }

end Body

section Run
variable {v : Values} {u : Wire} {address : Int} {rest : List Value}

theorem Shows.bodies_small {ds : List Value} (shown : d.Shows strict v u address calldataHead ds rest)
    (slots_small : 32 * ((ds ++ rest).length : Int) < Term.top)
    (fits : ((32 * (ds ++ rest).length + bodySizes (ds ++ rest) : Nat) : Int) < Term.top ∨
      ∃ bound < Term.top, ∀ a ∈ d.whole.acts u v, a.Within u bound) :
    32 * ((ds ++ rest).length : Int) + bodySizes ds < Term.top := by
  rcases fits with small | ⟨bound, low, within⟩
  · rw [bodySizes_append] at small
    omega
  · by_cases none : bodySizes ds = 0
    · omega
    · obtain ⟨a, ha, touches⟩ := shown.bodies (bodySizes ds - 1) (by omega)
      have := touches.lt (within a ha)
      omega

theorem shows_start (slots_small : 32 * (rest.length : Int) < Term.top)
    (heads_small : (calldataHead : Int) < Term.top) :
    (⟨empty, .ofNat (32 * rest.length), some (.ofNat calldataHead)⟩ : Draft).Shows strict v u address
      calldataHead [] rest := by
  constructor
  · rw [Term.read_ofNat, List.nil_append, bodySizes]
    omega
  · rintro _ t ⟨⟩
    rw [Term.read_ofNat, tailSizes]
    omega
  · rintro a ⟨⟩
  · simp
  · simp [bodySizes]
  · rintro a ⟨⟩
  · refine iff_of_true ?_ fun _ => trivial
    rintro a ⟨⟩
  · refine fun _ _ reach room _ _ => ⟨?_, .ofNat _, ?_⟩
    · rintro a ⟨⟩
    · rintro t ⟨⟩
      exact .ofNat _

/-- After each part the draft shows the parts so far. -/
theorem After.shows {n : Nat} (after : After strict (32 * n) calldataHead d done) (hv : v.Nonneg)
    (address0 : 0 ≤ address) (length : n = done.length + rest.length)
    (heads : headSizes (Part.walk strict u 0 calldataHead done ++ rest) = calldataHead)
    (slots_small : 32 * (n : Int) < Term.top) (heads_small : (calldataHead : Int) < Term.top)
    (fits : ((32 * n + bodySizes (Part.walk strict u 0 calldataHead done ++ rest) : Nat) : Int) <
      Term.top ∨ ∃ bound < Term.top, ∀ a ∈ d.whole.acts u v, a.Within u bound) :
    d.Shows strict v u address calldataHead (Part.walk strict u 0 calldataHead done) rest := by
  induction after generalizing rest with
  | start =>
    rw [List.length_nil, Nat.zero_add] at length
    subst length
    exact shows_start slots_small heads_small
  | @word d done earlier name ih =>
    have parts_length : (Part.walk strict u 0 calldataHead done).length = done.length :=
      Part.length_walk _ _ _
    have parts_heads : headSizes (Part.walk strict u 0 calldataHead done) = Part.headSizes done :=
      Part.headSizes_walk earlier.regular _ _
    rw [Part.walk_append _ _ earlier.regular, Nat.zero_add, ← parts_heads] at heads fits ⊢
    rw [← parts_length] at fits ih ⊢
    rw [List.length_append, List.length_singleton, ← parts_length] at length
    generalize Part.walk strict u 0 calldataHead done = ds at *
    have last : Part.walk strict u (headSizes ds) (calldataHead + tailSizes ds) [Tree.word.part strict] =
        [.word (u.number (headSizes ds) 32)] := by
      simp [Part.walk, Tree.part, Tree.decode, Part.start, Tree.isDynamic, Wire.number_drop]
    rw [last, List.append_assoc, List.singleton_append] at heads fits
    rw [last]
    have head_le : headSizes ds ≤ calldataHead := by
      rw [headSizes_append] at heads
      omega
    have old_fits := Act.fits_of_fits (d.whole.acts u v) fits fun bound within =>
      ((forall_acts_add_word (Act.local_within _ _) _ _ _).1 within).1
    refine (ih ?_ heads old_fits).add_word name (Wire.matches_of_word rfl) (by omega) (by omega) head_le
    rw [List.length_cons]
    omega
  | @body d done earlier name p part sound regular isBody apart ih =>
    have parts_length : (Part.walk strict u 0 calldataHead done).length = done.length :=
      Part.length_walk _ _ _
    have parts_heads : headSizes (Part.walk strict u 0 calldataHead done) = Part.headSizes done :=
      Part.headSizes_walk earlier.regular _ _
    rw [Part.walk_append _ _ earlier.regular, Nat.zero_add, ← parts_heads] at heads fits ⊢
    rw [← parts_length] at fits ih ⊢
    rw [List.length_append, List.length_singleton, ← parts_length] at length
    generalize Part.walk strict u 0 calldataHead done = ds at *
    obtain ⟨x, value⟩ : ∃ x, x = part.decode
        (u.drop (part.start strict u (headSizes ds) (calldataHead + tailSizes ds))) := ⟨_, rfl⟩
    have last : Part.walk strict u (headSizes ds) (calldataHead + tailSizes ds) [part] = [x] := by
      rw [value]
      rfl
    rw [last, List.append_assoc, List.singleton_append] at heads fits
    rw [last]
    have whole_length : (ds ++ x :: rest).length = n := by
      rw [List.length_append, List.length_cons]
      omega
    obtain ⟨start, checks, eq, starts⟩ :=
      earlier.formed.starts part.isDynamic (.ofNat (headSizes ds)) name
    have old_fits := Act.fits_of_fits (d.whole.acts u v) fits fun bound within =>
      ((forall_acts_add_body (Act.local_within _ _) earlier.formed eq starts rfl rfl apart).1 within).1
    have shown : d.Shows strict v u address calldataHead ds (x :: rest) :=
      ih (by rw [List.length_cons]; omega) heads old_fits
    have bodies_small := shown.bodies_small (by omega) (by rwa [whole_length])
    have tails_le := tailSizes_le ds
    have next : Next strict u calldataHead ds part x rest :=
      { value
        isBody := by rw [value, regular.isWord, isBody]
        dynamic := by rw [value, regular.isDynamic]
        heads
        offset_small := by
          rw [Term.top] at bodies_small heads_small
          omega }
    refine shown.add_body earlier.formed next heads_small (by omega) sound apart hv address0 (fits.imp_left fun small => ?_)
    have := @size_le_of_mem x (ds ++ x :: rest) (by simp)
    rw [whole_length] at this
    omega

/-- Where the writes of a whole draft end below the largest word, no literal is cut off. -/
theorem After.small {parts : List Part}
    (after : After strict (32 * parts.length) (Part.headSizes parts) d parts) (hv : v.Nonneg)
    (fits : ((Value.tuple (Part.tuple strict parts u)).size : Int) < Term.top ∨
      ∃ bound < Term.top, ∀ a ∈ d.whole.acts u v, a.Within u bound) :
    32 * (parts.length : Int) < Term.top ∧ (Part.headSizes parts : Int) < Term.top := by
  have heads_le := after.heads_le
  rcases fits with small | ⟨bound, low, within⟩
  · have encoded := extents_le (Part.tuple strict parts u)
    rw [extents_eq, Part.tuple, Part.headSizes_walk after.regular, Part.length_walk] at encoded
    rw [Value.size, Part.tuple, Part.length_walk] at small
    omega
  · have top0 : (0 : Int) < Term.top := by simp [Term.top]
    have sampled : WithinSample (max bound 0) d.whole := by
      refine withinSample_of_acts (u := u) after.formed.plain hv fun a ha => ?_
      have := within a ha
      cases a <;> simp only [Act.Within] at this ⊢ <;> omega
    have slots := after.slots_written (by omega) sampled
    have := after.written (by push_cast; exact slots) sampled
    have := after.room
    omega

theorem calldataSize_eq_some {dynamic : Bool} {t : Term} (ht : (if !dynamic then
      some (Term.ofNat calldataHead) else if strict then d.expected else none) = some t) :
    dynamic = false ∧ t = .ofNat calldataHead ∨ dynamic = true ∧ strict = true ∧ d.expected = some t := by
  cases dynamic <;> cases strict <;> simp_all

theorem Shows.decodes {vs : List Value} {dynamic : Bool}
    (shown : d.Shows strict v u address calldataHead vs []) (heads : headSizes vs = calldataHead)
    (heads_small : (calldataHead : Int) < Term.top) (static : dynamic = false → anyDynamic vs = false) :
    ({ d.whole with
        calldataSize :=
          if !dynamic then some (.ofNat calldataHead)
          else if strict then d.expected
          else none } : Plan).Decodes strict v u address (.tuple vs) := by
  obtain ⟨cursor, expected, good, slots, bodies, spares, agrees, ready⟩ := shown
  rw [List.append_nil] at cursor good bodies spares ready
  have aligned : Aligned u 0 calldataHead vs ↔ u.Matches (Value.tuple vs).cells := by
    rw [cells, matches_frame, heads]
  have extents := extents_eq vs
  rw [heads] at extents
  constructor
  · exact cursor
  · intro t ht
    rw [extent, extents]
    rcases calldataSize_eq_some ht with ⟨h, rfl⟩ | ⟨_, hs, he⟩
    · have := anyDynamic_false (static h)
      rw [Term.read_ofNat]
      omega
    · exact expected hs t he
  · rw [image_tuple]
    exact good
  · intro i hi
    rw [Value.size] at hi
    by_cases low : i < 32 * vs.length
    · exact slots i low
    · have := bodies (i - 32 * vs.length) (by omega)
      rwa [show (32 * (vs.length : Int) + (i - 32 * vs.length : Nat)) = i by omega] at this
  · intro a ha
    rw [firm_tuple]
    exact (spares a ha).mono (lengths_of_bound fun n hn => mem_bound.2 ((mem_bound (p := d.plan)).1 hn))
  · exact agrees.trans (by rw [aligned])
  · intro found small
    rw [Value.size] at small
    obtain ⟨acts_ready, cursor_ready, expected_ready⟩ := ready (found.imp_right aligned.2) small
      (Value.tuple vs).extent (Value.tuple vs).size (by rw [extent, extents]; omega) (by rw [Value.size]; omega)
    refine ⟨acts_ready, cursor_ready, fun t ht => ?_⟩
    rcases calldataSize_eq_some ht with ⟨_, rfl⟩ | ⟨_, _, he⟩
    · exact .ofNat _
    · exact expected_ready t he

theorem After.sound {parts : List Part} {part : Part}
    (after : After strict (32 * parts.length) (Part.headSizes parts) d parts)
    (dynamic : part.isDynamic = parts.any Part.isDynamic)
    (head : part.isDynamic = false → part.headSize = Part.headSizes parts)
    (value : ∀ u, part.decode u = .tuple (Part.tuple strict parts u)) :
    ({ d.whole with
        calldataSize :=
          if !part.isDynamic then some (.ofNat (Part.headSizes parts))
          else if strict then d.expected
          else none } : Plan).Sound strict part := by
  have formed := after.formed
  constructor
  · refine plain_resized (p := d.whole) formed.plain formed.plain_cursor fun t ht => ?_
    rcases calldataSize_eq_some ht with ⟨_, rfl⟩ | ⟨_, _, he⟩
    · exact .ofNat _
    · exact formed.plain_expected he
  · intro n hn
    rcases names_resized (p := d.whole) hn with h | h | ⟨t, ht, h⟩
    · exact formed.closed n h
    · exact formed.closed n (mem_names_memorySize h)
    · rcases calldataSize_eq_some ht with ⟨_, rfl⟩ | ⟨_, _, he⟩
      · cases h
      · exact formed.closed n (mem_names_calldataSize he h)
  · intro hs
    cases h : part.isDynamic <;> simp [hs, formed.measured]
  · intro bound bound0 copies pointers
    refine after.written ?_ ⟨copies, pointers⟩
    push_cast
    exact after.slots_written bound0 ⟨copies, pointers⟩
  · intro static
    have room := after.room
    have heads_le := after.heads_le
    have top0 : (0 : Int) < Term.top := by simp [Term.top]
    rw [head static]
    show _ ≤ d.cursor.sample 0
    omega
  · intro v u address hv address0 fits
    rw [value] at fits ⊢
    obtain ⟨slots_small, heads_small⟩ := after.small hv fits
    have values_length : (Part.tuple strict parts u).length = parts.length := Part.length_walk _ _ _
    have values_heads : headSizes (Part.tuple strict parts u) = Part.headSizes parts :=
      Part.headSizes_walk after.regular _ _
    have shown : d.Shows strict v u address (Part.headSizes parts) (Part.tuple strict parts u) [] := by
      refine after.shows hv address0 (by simp) ?_ slots_small heads_small ?_
      · rwa [List.append_nil]
      · rw [List.append_nil]
        rw [Fits, Value.size, values_length] at fits
        exact fits
    refine shown.decodes values_heads heads_small fun static => ?_
    rw [Part.tuple, Part.anyDynamic_walk after.regular, ← dynamic, static]

end Run

end Plan.Draft
end Calldata

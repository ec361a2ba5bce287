import Calldata.Proofs.Compose
import Calldata.Proofs.Flat

/-!
Drafts of the body of a tuple, as far as they can be known without calldata: their terms are plain,
they mention only cursors of their own loops, and how large they are with zeros everywhere.
-/
namespace Calldata
open Cell Value

namespace Plan

def Draft.whole (d : Draft) : Plan :=
  { d.plan with memorySize := d.cursor, calldataSize := d.expected }

inductive Draft.After (strict : Bool) (memoryHead calldataHead : Nat) : Draft → List Part → Prop
  | start : After strict memoryHead calldataHead
      ⟨empty, .ofNat memoryHead, some (.ofNat calldataHead)⟩ []
  | word {d : Draft} {done : List Part} (earlier : After strict memoryHead calldataHead d done)
      (name : String) : After strict memoryHead calldataHead
        (d.add strict ⟨name, .ofNat (32 * done.length), .ofNat (Part.headSizes done), none⟩)
        (done ++ [Tree.word.part strict])
  | body {d : Draft} {done : List Part} (earlier : After strict memoryHead calldataHead d done)
      (name : String) {p : Plan} {part : Part} (sound : p.Sound strict part) (regular : part.Regular)
      (isBody : part.isWord = false) (apart : ∀ n ∈ p.bound, n ∉ d.plan.bound) :
      After strict memoryHead calldataHead
        (d.add strict ⟨name, .ofNat (32 * done.length), .ofNat (Part.headSizes done),
          some (part.isDynamic, p)⟩)
        (done ++ [part])

variable {p q : Plan} {n : String}

theorem names_append (h : n ∈ (append p q).names) : n ∈ p.names ∨ n ∈ q.names := by
  rcases List.mem_append.1 h with h | h
  · obtain ⟨a, ha, hn⟩ := List.mem_flatMap.1 h
    exact ((mem_level_append _).1 ha).imp (mentions_of_mem_level · n hn) (mentions_of_mem_level · n hn)
  · exact .inl (List.mem_append_right _ h)

theorem names_resized {size : Term} {calldataSize : Option Term}
    (h : n ∈ ({ p with memorySize := size, calldataSize := calldataSize } : Plan).names) :
    n ∈ p.names ∨ n ∈ size.occurrences ∨ ∃ t, calldataSize = some t ∧ n ∈ t.occurrences := by
  rcases List.mem_append.1 h with h | h
  · exact .inl (List.mem_append_left _ h)
  · refine .inr ((List.mem_append.1 h).imp_right fun h => ?_)
    cases calldataSize with
    | none => cases h
    | some t => exact ⟨t, rfl, h⟩

theorem names_rebased {c m : Term} (plain : p.Plain) (h : n ∈ (p.rebased c m).names) :
    n ∈ p.names ∨ n ∈ c.occurrences ∨ n ∈ m.occurrences := by
  have amount {t : Term} (ht : t.Plain) (h : n ∈ (Base.amount ⟨c, m⟩ t).occurrences) :
      n ∈ t.occurrences ∨ n ∈ c.occurrences := ht.of_mem_occurrences_moved h
  have mentioned {a : Act} (ha : a ∈ p.level fun _ => none) (hn : n ∈ a.mentions) : n ∈ p.names :=
    mentions_of_mem_level ha n hn
  obtain ⟨pointers, copies, loops, checks, memorySize, calldataSize⟩ := p
  obtain ⟨hp, hc, _, hk, hm, hs⟩ := plain
  rcases List.mem_append.1 h with h | h
  · obtain ⟨a, ha, hn⟩ := List.mem_flatMap.1 h
    simp only [level, rebased, Base.plan, List.map_map, List.mem_append, List.mem_map,
      Function.comp_apply] at ha
    rcases ha with ⟨x, hx, rfl⟩ | ⟨x, hx, rfl⟩ | ⟨x, hx, rfl⟩
    · have there := @mentioned (.check x fun _ => none) (by simp [level, hx])
      have plain := hk x hx
      simp only [Act.mentions, Base.check, List.mem_append] at hn there
      rcases hn with hn | hn
      · rcases amount plain.1 hn with h | h <;> tauto
      · rcases amount plain.2 hn with h | h <;> tauto
    · have there := @mentioned (.copy x fun _ => none) (by simp [level, hx])
      have plain := hc x hx
      simp only [Act.mentions, Base.copy, Base.inMemory, Base.inCalldata, List.mem_append,
        Term.mem_occurrences_add] at hn there
      rcases hn with (hn | hn) | (hn | hn) | hn
      · rcases amount plain.1 hn with h | h <;> tauto
      · tauto
      · rcases amount plain.2.1 hn with h | h <;> tauto
      · tauto
      · rcases amount plain.2.2 hn with h | h <;> tauto
    · have there := @mentioned (.point x fun _ => none) (by simp [level, hx])
      have plain := hp x hx
      simp only [Act.mentions, Base.pointer, Base.inMemory, List.mem_append,
        Term.mem_occurrences_add] at hn there
      rcases hn with (hn | hn) | hn | hn
      · rcases amount plain.1 hn with h | h <;> tauto
      · tauto
      · rcases amount plain.2 hn with h | h <;> tauto
      · tauto
  · rcases List.mem_append.1 h with h | h
    · exact (amount hm h).imp mem_names_memorySize .inl
    · cases calldataSize with
      | none => cases h
      | some t => exact (amount (hs t rfl) h).imp (mem_names_calldataSize rfl) .inl

theorem plain_append (hp : p.Plain) (hq : q.Plain) : (append p q).Plain := by
  cases p
  cases q
  refine ⟨?_, ?_, plainLoops_append hp.2.2.1 hq.2.2.1, ?_, hp.2.2.2.2⟩
  · exact List.forall_mem_append.2 ⟨hp.1, hq.1⟩
  · exact List.forall_mem_append.2 ⟨hp.2.1, hq.2.1⟩
  · exact List.forall_mem_append.2 ⟨hp.2.2.2.1, hq.2.2.2.1⟩

theorem plain_resized (hp : p.Plain) {size : Term} {calldataSize : Option Term} (hs : size.Plain)
    (hc : ∀ t, calldataSize = some t → t.Plain) :
    ({ p with memorySize := size, calldataSize := calldataSize } : Plan).Plain := by
  cases p
  exact ⟨hp.1, hp.2.1, hp.2.2.1, hp.2.2.2.1, hs, hc⟩

theorem mem_cursorNames_append (h : n ∈ cursorNames p.loops ∨ n ∈ cursorNames q.loops) :
    n ∈ cursorNames (append p q).loops := by
  rw [append, cursorNames_append]
  exact List.mem_append.2 h

namespace Draft
variable {strict : Bool} {memoryHead calldataHead : Nat} {d : Draft} {done : List Part}

def following (d : Draft) (dynamic : Bool) (q : Plan) : Option Term :=
  if dynamic then
    match d.expected, q.calldataSize with
    | some offset, some size => some (offset + size)
    | _, _ => none
  else d.expected

def opening (d : Draft) (name : String) (slot : Term) (checks : List Check) : Plan :=
  { empty with pointers := [⟨slot, d.cursor, some name⟩], checks }

theorem whole_add_word (name : String) (slot head : Term) :
    (d.add strict ⟨name, slot, head, none⟩).whole =
      append d.whole { empty with copies := [⟨slot, head, .words 1, [name]⟩] } := by
  simp [add, whole, append, empty]

theorem whole_add_body (name : String) (slot head : Term) (dynamic : Bool) (p : Plan)
    {start : Term} {checks : List Check}
    (hs : memberStart strict dynamic head (.literal 0) d.expected name = (start, checks)) :
    (d.add strict ⟨name, slot, head, some (dynamic, p)⟩).whole =
      { append (append d.whole (d.opening name slot checks)) (p.rebased start d.cursor) with
        memorySize := d.cursor + (p.rebased start d.cursor).memorySize
        calldataSize := d.following dynamic (p.rebased start d.cursor) } := by
  simp only [add, hs, whole, append, opening, empty, List.append_nil]
  rfl

theorem bound_add_word (strict : Bool) (d : Draft) (name : String) (slot head : Term) :
    (d.add strict ⟨name, slot, head, none⟩).plan.bound = d.plan.bound := by
  simp only [add]
  cases d.plan
  rfl

theorem bound_add_body (strict : Bool) (d : Draft) (name : String) (slot head : Term)
    (dynamic : Bool) (p : Plan) :
    (d.add strict ⟨name, slot, head, some (dynamic, p)⟩).plan.bound = d.plan.bound ++ p.bound := by
  simp only [add]
  rw [bound_append, rebased, Base.bound_plan]
  cases d.plan
  rfl

/-- What is known of a draft without reading any calldata. -/
structure Formed (strict : Bool) (d : Draft) : Prop where
  plain : d.whole.Plain
  closed : ∀ n ∈ d.whole.names, n ∈ cursorNames d.whole.loops
  measured : strict = true → d.expected ≠ none

inductive Starts (strict : Bool) (d : Draft) (dynamic : Bool) (head : Term) (name : String) :
    Term → List Check → Prop
  | inPlace (h : dynamic = false) : Starts strict d dynamic head name head []
  | behindOffset (h : dynamic = true) (lenient : strict = false) :
      Starts strict d dynamic head name (.literal 0 + .load head) []
  | canonical (h : dynamic = true) (hs : strict = true) {e : Term} (he : d.expected = some e) :
      Starts strict d dynamic head name (.literal 0 + e) [⟨name ++ ".offset", .load head, e⟩]

theorem exists_starts (measured : strict = true → d.expected ≠ none) (dynamic : Bool) (head : Term)
    (name : String) : ∃ start checks, memberStart strict dynamic head (.literal 0) d.expected name = (start, checks) ∧
      Starts strict d dynamic head name start checks := by
  cases dynamic with
  | false => exact ⟨_, _, rfl, .inPlace rfl⟩
  | true =>
    cases strict with
    | false => exact ⟨_, _, rfl, .behindOffset rfl rfl⟩
    | true =>
      obtain ⟨e, he⟩ := Option.ne_none_iff_exists'.1 (measured rfl)
      exact ⟨_, _, by rw [he]; rfl, .canonical rfl rfl he⟩

theorem Formed.starts (formed : d.Formed strict) (dynamic : Bool) (head : Term) (name : String) :
    ∃ start checks, memberStart strict dynamic head (.literal 0) d.expected name = (start, checks) ∧
      Starts strict d dynamic head name start checks :=
  exists_starts formed.measured dynamic head name

theorem Formed.plain_cursor (formed : d.Formed strict) : d.cursor.Plain := formed.plain.memorySize

theorem Formed.plain_expected (formed : d.Formed strict) {e : Term} (he : d.expected = some e) :
    e.Plain := formed.plain.calldataSize he

theorem Formed.bound_of_cursor (formed : d.Formed strict) {n : String} (h : n ∈ d.cursor.occurrences) :
    n ∈ d.plan.bound :=
  mem_bound.2 (mem_boundOf_of_cursorNames _ (formed.closed n (mem_names_memorySize h)))

theorem Formed.bound_of_expected (formed : d.Formed strict) {e : Term} (he : d.expected = some e)
    {n : String} (h : n ∈ e.occurrences) : n ∈ d.plan.bound :=
  mem_bound.2 (mem_boundOf_of_cursorNames _ (formed.closed n (mem_names_calldataSize he h)))

section Step
variable {p : Plan} {part : Part} {name : String} {slot head start : Term} {checks : List Check}

theorem Starts.plain {dynamic : Bool} (h : Starts strict d dynamic head name start checks)
    (whole : d.whole.Plain) (hh : head.Plain) : start.Plain ∧ ∀ c ∈ checks, c.Plain := by
  cases h with
  | inPlace _ => exact ⟨hh, by simp⟩
  | behindOffset _ _ => exact ⟨(Term.Plain.literal (by simp)).sum hh.load, by simp⟩
  | canonical _ _ he =>
    have expected := whole.calldataSize he
    exact ⟨(Term.Plain.literal (by simp)).sum expected, by simpa using ⟨hh.load, expected⟩⟩

theorem Starts.mem_names {dynamic : Bool} (h : Starts strict d dynamic head name start checks)
    (hh : head.occurrences = []) {n : String}
    (hn : n ∈ start.occurrences ∨ ∃ c ∈ checks, n ∈ c.actual.occurrences ++ c.expected.occurrences) :
    n ∈ d.whole.names := by
  cases h with
  | inPlace _ => simp [hh] at hn
  | behindOffset _ _ => simp [hh, Term.mem_occurrences_add, Term.occurrences] at hn
  | canonical _ _ he =>
    simp only [Term.mem_occurrences_add, Term.occurrences, hh, List.mem_singleton, exists_eq_left,
      List.nil_append, List.not_mem_nil, false_or, or_self] at hn
    exact mem_names_calldataSize he hn

theorem Formed.add_word (formed : d.Formed strict) (hs : slot.Plain) (hh : head.Plain)
    (noSlot : slot.occurrences = []) (noHead : head.occurrences = []) :
    (d.add strict ⟨name, slot, head, none⟩).Formed strict where
  plain := by
    rw [whole_add_word]
    refine plain_append formed.plain ⟨by simp [empty], ?_, trivial, by simp [empty], ?_, by simp [empty]⟩
    · exact List.forall_mem_singleton.2 ⟨hs, hh, .ofNat _⟩
    · exact .literal (by simp)
  closed := by
    intro n hn
    rw [whole_add_word] at hn ⊢
    refine mem_cursorNames_append ((names_append hn).imp (formed.closed n) fun h => ?_)
    simp [names, level, empty, Act.mentions, noSlot, noHead, Term.words, Term.ofNat,
      Term.occurrences] at h
  measured := formed.measured

theorem Starts.names_opening {dynamic : Bool}
    (starts : Starts strict d dynamic head name start checks) (noSlot : slot.occurrences = [])
    (noHead : head.occurrences = []) {n : String} (h : n ∈ (d.opening name slot checks).names) :
    n ∈ d.whole.names := by
  simp only [opening, names, level, empty, Act.mentions, Term.occurrences, List.map_nil,
    List.nil_append, List.map_cons, List.flatMap_append, List.flatMap_map, List.flatMap_cons,
    List.flatMap_nil, List.append_nil, List.mem_append, List.mem_flatMap, noSlot, Option.map_none,
    Option.getD_none] at h
  rcases h with ⟨c, hc, hn⟩ | h
  · exact starts.mem_names noHead (.inr ⟨c, hc, List.mem_append.2 hn⟩)
  · exact mem_names_memorySize h

theorem following_eq_some {dynamic : Bool} {q : Plan} {t : Term} (h : d.following dynamic q = some t) :
    ∃ e, d.expected = some e ∧
      (dynamic = false ∧ t = e ∨ dynamic = true ∧ ∃ size, q.calldataSize = some size ∧ t = e + size) := by
  cases dynamic with
  | false => exact ⟨t, h, .inl ⟨rfl, rfl⟩⟩
  | true =>
    simp only [following, if_true] at h
    split at h
    · next e size he hs => exact ⟨e, he, .inr ⟨rfl, size, hs, (Option.some.inj h).symm⟩⟩
    · cases h

theorem Formed.add_body (formed : d.Formed strict) (sound : p.Sound strict part) (hs : slot.Plain)
    (hh : head.Plain) (noSlot : slot.occurrences = []) (noHead : head.occurrences = []) :
    (d.add strict ⟨name, slot, head, some (part.isDynamic, p)⟩).Formed strict := by
  obtain ⟨start, checks, eq, starts⟩ := formed.starts part.isDynamic head name
  obtain ⟨plainStart, plainChecks⟩ := starts.plain formed.plain hh
  have moved : (p.rebased start d.cursor).Plain :=
    Base.plain_plan ⟨plainStart, formed.plain_cursor⟩ p sound.plain
  have plainOpening : (d.opening name slot checks).Plain :=
    ⟨List.forall_mem_singleton.2 ⟨hs, formed.plain_cursor⟩, by simp [empty], trivial, plainChecks,
      .literal (by simp), by simp [empty]⟩
  constructor
  · rw [whole_add_body name slot head _ p eq]
    refine plain_resized (plain_append (plain_append formed.plain plainOpening) moved)
      (formed.plain_cursor.sum moved.memorySize) fun t ht => ?_
    obtain ⟨e, he, ⟨_, rfl⟩ | ⟨_, size, hs, rfl⟩⟩ := following_eq_some ht
    · exact formed.plain_expected he
    · exact (formed.plain_expected he).sum (moved.calldataSize hs)
  · intro n hn
    rw [whole_add_body name slot head _ p eq] at hn ⊢
    have own (h : n ∈ d.whole.names) : n ∈ cursorNames
        (append (append d.whole (d.opening name slot checks)) (p.rebased start d.cursor)).loops :=
      mem_cursorNames_append (.inl (mem_cursorNames_append (.inl (formed.closed n h))))
    have inner (h : n ∈ (p.rebased start d.cursor).names) : n ∈ cursorNames
        (append (append d.whole (d.opening name slot checks)) (p.rebased start d.cursor)).loops := by
      rcases names_rebased sound.plain h with h | h | h
      · refine mem_cursorNames_append (.inr ?_)
        rw [rebased_loops, Base.cursorNames_loops]
        exact sound.closed n h
      · exact own (starts.mem_names noHead (.inl h))
      · exact own (mem_names_memorySize h)
    have expected {e : Term} (he : d.expected = some e) (h : n ∈ e.occurrences) :=
      own (mem_names_calldataSize he h)
    rcases names_resized hn with h | h | ⟨t, ht, h⟩
    · rcases names_append h with h | h
      · exact own ((names_append h).elim id (starts.names_opening noSlot noHead))
      · exact inner h
    · rcases (Term.mem_occurrences_add _ _).1 h with h | h
      · exact own (mem_names_memorySize h)
      · exact inner (mem_names_memorySize h)
    · obtain ⟨e, he, ⟨_, rfl⟩ | ⟨_, size, hs, rfl⟩⟩ := following_eq_some ht
      · exact expected he h
      · rcases (Term.mem_occurrences_add _ _).1 h with h | h
        · exact expected he h
        · exact inner (mem_names_calldataSize hs h)
  · intro isStrict
    have resized := congrArg Plan.calldataSize (whole_add_body (d := d) name slot head part.isDynamic p eq)
    obtain ⟨e, he⟩ := Option.ne_none_iff_exists'.1 (formed.measured isStrict)
    obtain ⟨size, hs⟩ := Option.ne_none_iff_exists'.1 (sound.measured isStrict)
    have next : (d.add strict ⟨name, slot, head, some (part.isDynamic, p)⟩).expected =
        d.following part.isDynamic (p.rebased start d.cursor) := resized
    rw [next, following, he, rebased_calldataSize, hs]
    split <;> simp

end Step

theorem After.formed (after : After strict memoryHead calldataHead d done) : d.Formed strict := by
  induction after with
  | start =>
    constructor
    · exact ⟨by simp [empty], by simp [empty], trivial, by simp [empty], .ofNat _,
        by rintro t ⟨⟩; exact .ofNat _⟩
    · simp [whole, names, level, empty, Term.ofNat, Term.occurrences]
    · simp
  | word _ _ ih => exact ih.add_word (.ofNat _) (.ofNat _) rfl rfl
  | body _ _ sound _ _ _ ih => exact ih.add_body sound (.ofNat _) (.ofNat _) rfl rfl

theorem After.regular (after : After strict memoryHead calldataHead d done) :
    ∀ p ∈ done, p.Regular := by
  induction after with
  | start => simp
  | word _ _ ih =>
    rw [List.forall_mem_append, List.forall_mem_singleton]
    exact ⟨ih, Tree.regular_part strict .word⟩
  | body _ _ _ regular _ _ ih =>
    rw [List.forall_mem_append, List.forall_mem_singleton]
    exact ⟨ih, regular⟩

theorem cursor_add_body (name : String) (slot head : Term) (dynamic : Bool) (p : Plan) (k : Int) :
    (d.add strict ⟨name, slot, head, some (dynamic, p)⟩).cursor.sample k =
      d.cursor.sample k + p.memorySize.sample k := by
  simp only [add, rebased_memorySize, Term.sample, Term.denote_add]
  rw [← Term.sample, ← Term.sample, ← Term.sample]
  exact congrArg _ (Term.sample_moved k _ p.memorySize)

def inPlace : List Part → Nat
  | [] => 0
  | p :: rest => (if p.isWord || p.isDynamic then 0 else p.headSize) + inPlace rest

theorem inPlace_append (l l' : List Part) : inPlace (l ++ l') = inPlace l + inPlace l' := by
  induction l with
  | nil => simp [inPlace]
  | cons p rest ih => simp [inPlace, ih, Nat.add_assoc]

theorem After.room (after : After strict memoryHead calldataHead d done) :
    min (memoryHead : Int) Term.top + min (inPlace done : Int) Term.top ≤ d.cursor.sample 0 := by
  have top0 : (0 : Int) ≤ Term.top := by simp [Term.top]
  induction after with
  | start =>
    rw [Term.sample_ofNat]
    simp only [inPlace]
    omega
  | word _ _ ih =>
    refine Int.le_trans ?_ ih
    simp [inPlace_append, inPlace, Tree.part, Tree.isWord]
  | @body d done earlier name p part sound _ isBody _ ih =>
    have nonneg : 0 ≤ p.memorySize.sample 0 :=
      sound.plain.memorySize.denote_nonneg (fun _ => Int.le_refl 0) fun _ => Int.le_refl 0
    rw [cursor_add_body, inPlace_append, inPlace, isBody, Bool.false_or]
    cases dynamic : part.isDynamic with
    | true =>
      simp only [inPlace, if_true]
      omega
    | false =>
      have floor := sound.floor dynamic
      simp only [inPlace, Bool.false_eq_true, if_false]
      omega

/-- With zeros everywhere, nothing is written behind `bound`. -/
def WithinSample (bound : Int) (p : Plan) : Prop :=
  (∀ c ∈ p.copies, c.dst.sample 0 + c.size.sample 0 ≤ bound) ∧
    ∀ q ∈ p.pointers, q.dst.sample 0 + 32 ≤ bound

theorem withinSample_append {bound : Int} {p q : Plan} :
    WithinSample bound (append p q) ↔ WithinSample bound p ∧ WithinSample bound q := by
  simp only [WithinSample, append, List.forall_mem_append]
  exact and_and_and_comm

theorem withinSample_rebased {bound : Int} {p : Plan} {c m : Term}
    (h : WithinSample bound (p.rebased c m)) : WithinSample (bound - m.sample 0) p := by
  have moved (t : Term) : (Base.inMemory ⟨c, m⟩ t).sample 0 = t.sample 0 + m.sample 0 := by
    rw [Base.inMemory, Term.sample, Term.denote_add, ← Term.sample, ← Term.sample]
    exact congrArg (· + m.sample 0) (Term.sample_moved 0 c t)
  obtain ⟨copies, pointers⟩ := h
  rw [rebased_copies, List.forall_mem_map] at copies
  rw [rebased_pointers, List.forall_mem_map] at pointers
  refine ⟨fun k hk => ?_, fun k hk => ?_⟩
  · have := copies k hk
    simp only [Base.copy, moved] at this
    rw [show (Base.amount ⟨c, m⟩ k.size).sample 0 = k.size.sample 0 from Term.sample_moved 0 c k.size] at this
    omega
  · have := pointers k hk
    simp only [Base.pointer, moved] at this
    omega

theorem After.written (after : After strict memoryHead calldataHead d done) {bound : Int}
    (head : min (memoryHead : Int) Term.top ≤ bound) (within : WithinSample bound d.whole) :
    d.cursor.sample 0 ≤ bound := by
  induction after with
  | start => rwa [Term.sample_ofNat]
  | word _ _ ih =>
    rw [whole_add_word, withinSample_append] at within
    exact ih within.1
  | @body d done earlier name p part sound _ _ _ ih =>
    obtain ⟨start, checks, eq, _⟩ := earlier.formed.starts part.isDynamic
      (.ofNat (Part.headSizes done)) name
    rw [whole_add_body _ _ _ _ p eq] at within
    have split : WithinSample bound
      (append (append d.whole (d.opening name (.ofNat (32 * done.length)) checks))
        (p.rebased start d.cursor)) := within
    rw [withinSample_append, withinSample_append] at split
    have before := ih split.1.1
    obtain ⟨copies, pointers⟩ := withinSample_rebased split.2
    have := sound.written (bound - d.cursor.sample 0) (by omega) copies pointers
    rw [cursor_add_body]
    omega

theorem After.slots_written (after : After strict memoryHead calldataHead d done) {bound : Int}
    (bound0 : 0 ≤ bound) (within : WithinSample bound d.whole) :
    min (32 * done.length : Int) Term.top ≤ bound := by
  have next {m : Nat} (h : (Term.ofNat (32 * m)).sample 0 + 32 ≤ bound) :
      min (32 * (m + 1 : Nat) : Int) Term.top ≤ bound := by
    rw [Term.sample_ofNat] at h
    omega
  cases after with
  | start => simp only [List.length_nil]; omega
  | @word d done earlier name =>
    rw [whole_add_word, withinSample_append] at within
    have := within.2.1 _ (List.mem_singleton.2 rfl)
    rw [Term.words_eq, Term.sample_ofNat 32] at this
    rw [List.length_append]
    exact next this
  | @body d done earlier name p part _ _ _ _ =>
    obtain ⟨start, checks, eq, _⟩ := earlier.formed.starts part.isDynamic
      (.ofNat (Part.headSizes done)) name
    rw [whole_add_body _ _ _ _ p eq] at within
    have := within.2 ⟨.ofNat (32 * done.length), d.cursor, some name⟩
      (List.mem_append_left _ (List.mem_append_right _ (List.mem_singleton.2 rfl)))
    rw [List.length_append]
    exact next this

theorem After.heads_le (after : After strict memoryHead calldataHead d done) :
    Part.headSizes done ≤ 32 * done.length + inPlace done := by
  have append (l : List Part) (p : Part) : Part.headSizes (l ++ [p]) = Part.headSizes l + p.headSize := by
    induction l with
    | nil => simp [Part.headSizes]
    | cons q rest ih => simp [Part.headSizes, ih, Nat.add_assoc]
  induction after with
  | start => simp [Part.headSizes]
  | word _ _ ih =>
    rw [append, inPlace_append, List.length_append]
    simp only [inPlace, List.length_singleton, Tree.part, Tree.headSize]
    omega
  | @body d done earlier name p part _ regular isBody _ ih =>
    rw [append, inPlace_append, List.length_append, inPlace, isBody, Bool.false_or]
    cases dynamic : part.isDynamic with
    | false =>
      simp only [List.length_singleton, inPlace, Bool.false_eq_true, if_false]
      omega
    | true =>
      have head := regular.headSize fun _ => 0
      rw [Value.headSize, regular.isDynamic, dynamic, if_pos rfl] at head
      simp only [List.length_singleton, inPlace, if_true]
      omega

/-- What is written below a bound is written below it with zeros everywhere. -/
theorem withinSample_of_acts {p : Plan} {v : Values} {u : Wire} {bound : Int} (plain : p.Plain)
    (hv : v.Nonneg) (within : ∀ a ∈ p.acts u v, a.Within u bound) : WithinSample bound p := by
  have hv' := nonneg_last (u := u) plain hv
  have least {t : Term} (ht : t.Plain) : t.sample 0 ≤ t.read (p.last u v) u :=
    ht.sample_zero_le hv'.getD u.word_nonneg
  have level (a : Act) (ha : a ∈ p.level (p.last u v)) := within a (List.mem_append_right _ ha)
  obtain ⟨pointers, copies, loops, checks, memorySize, calldataSize⟩ := p
  obtain ⟨hp, hc, -⟩ := plain
  refine ⟨fun c h => ?_, fun q h => ?_⟩
  · have : _ + _ ≤ bound := level _ (copy_mem_level h _)
    have := least (hc c h).1
    have := least (hc c h).2.2
    omega
  · have : _ + _ ≤ bound := level _ (point_mem_level h _)
    have := least (hp q h).1
    omega

end Draft

end Plan
end Calldata

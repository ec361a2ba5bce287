import Calldata.Proofs.FlatArray
import Calldata.Proofs.Members

/-!
Arrays of elements with bodies of their own. The rounds of the loop take the elements one by one:
before each round the first cursor is the end of the bodies so far and, where offsets are checked,
the second one the end of the tails so far.
-/
namespace Calldata
open Cell Value

namespace Plan

inductive ElementStarts (strict dynamic : Bool) (headSize : Nat) (scope : String) :
    Term → List Check → Prop
  | inPlace (h : dynamic = false) : ElementStarts strict dynamic headSize scope
      (.var (scope ++ ".index") * .ofNat headSize + .words 1) []
  | behindOffset (h : dynamic = true) (lenient : strict = false) :
      ElementStarts strict dynamic headSize scope
        (.words 1 + .load (elementSlot (.var (scope ++ ".index")))) []
  | canonical (h : dynamic = true) (hs : strict = true) : ElementStarts strict dynamic headSize scope
      (.words 1 + .var (scope ++ ".offset"))
      [⟨scope ++ "[]" ++ ".offset", .load (elementSlot (.var (scope ++ ".index"))),
        .var (scope ++ ".offset")⟩]

inductive ElementCursors (strict dynamic : Bool) (scope : String) (q : Plan) : List Cursor → Prop
  | memory (h : (dynamic && strict) = false) : ElementCursors strict dynamic scope q
      [⟨scope ++ ".cursor", elementsEnd, q.memorySize⟩]
  | both (h : (dynamic && strict) = true) {size : Term} (hs : q.calldataSize = some size) :
      ElementCursors strict dynamic scope q [⟨scope ++ ".cursor", elementsEnd, q.memorySize⟩,
        ⟨scope ++ ".offset", elementCount * .literal 32, size⟩]

def elementOpening (scope : String) (checks : List Check) : Plan :=
  { empty with
    pointers := [⟨elementSlot (.var (scope ++ ".index")), .var (scope ++ ".cursor"), some (scope ++ "[]")⟩]
    checks }

def elementBody (scope : String) (start : Term) (checks : List Check) (element : Plan) : Plan :=
  append (elementOpening scope checks) (element.rebased start (.var (scope ++ ".cursor")))

def overElements (strict dynamic : Bool) (headSize : Nat) (scope : String) (cursors : List Cursor)
    (body : Plan) : Plan :=
  { empty with
    copies := [lengthCopy scope]
    loops := [⟨scope, scope ++ ".index", elementCount, cursors, body⟩]
    memorySize := .var (scope ++ ".cursor")
    calldataSize :=
      if !dynamic then some (elementCount * .ofNat headSize + .words 1)
      else if dynamic && strict then some (.var (scope ++ ".offset") + .words 1)
      else none }

theorem ofDynamicArray_eq {strict dynamic : Bool} (headSize : Nat) (scope : String) {element : Plan}
    (measured : strict = true → element.calldataSize ≠ none) :
    ∃ start checks cursors, ElementStarts strict dynamic headSize scope start checks ∧
      ElementCursors strict dynamic scope (element.rebased start (.var (scope ++ ".cursor"))) cursors ∧
      ofDynamicArray strict dynamic headSize scope element =
        some (overElements strict dynamic headSize scope cursors
          (elementBody scope start checks element)) := by
  cases dynamic with
  | false => exact ⟨_, _, _, .inPlace rfl, .memory rfl, rfl⟩
  | true =>
    cases strict with
    | false => exact ⟨_, _, _, .behindOffset rfl rfl, .memory rfl, rfl⟩
    | true =>
      obtain ⟨size, hs⟩ := Option.ne_none_iff_exists'.1 (measured rfl)
      have moved : (element.rebased (.words 1 + .var (scope ++ ".offset"))
          (.var (scope ++ ".cursor"))).calldataSize =
          some (Base.amount ⟨.words 1 + .var (scope ++ ".offset"), .var (scope ++ ".cursor")⟩ size) := by
        rw [rebased_calldataSize, hs]
        rfl
      refine ⟨_, _, _, .canonical rfl rfl, .both rfl moved, ?_⟩
      simp only [ofDynamicArray, memberStart, Bool.not_true, Bool.false_eq_true, if_false, if_true,
        Bool.and_self, moved, Option.map_some]
      rfl

/-- The names that the loop over elements sets itself. -/
def own (scope : String) : List String :=
  [scope ++ ".index", scope ++ ".cursor", scope ++ ".offset"]

section Forms
variable {strict dynamic : Bool} {headSize : Nat} {scope : String} {start : Term} {checks : List Check}
variable {element : Plan} {part : Part} {cursors : List Cursor}

theorem ElementStarts.plain (h : ElementStarts strict dynamic headSize scope start checks) :
    start.Plain ∧ ∀ c ∈ checks, c.Plain := by
  have slot : (Term.load (elementSlot (.var (scope ++ ".index")))).Plain :=
    .load (plain_elementSlot (.var _))
  cases h with
  | inPlace _ => exact ⟨(plain_scaled (.var _) _).sum (.ofNat _), by simp⟩
  | behindOffset _ _ => exact ⟨(Term.Plain.ofNat _).sum slot, by simp⟩
  | canonical _ _ =>
    exact ⟨(Term.Plain.ofNat _).sum (.var _), by simpa using ⟨slot, .var _⟩⟩

theorem ElementStarts.mem_own (h : ElementStarts strict dynamic headSize scope start checks) {n : String}
    (hn : n ∈ start.occurrences ∨ ∃ c ∈ checks, n ∈ c.actual.occurrences ++ c.expected.occurrences) :
    n ∈ own scope := by
  have scaled {k : Int64} (h : n ∈ (Term.var (scope ++ ".index") * .literal k).occurrences) :
      n ∈ own scope := by
    have := Term.of_mem_occurrences_scale h
    simp only [Term.occurrences, List.mem_singleton] at this
    simp [own, this]
  have slot (h : n ∈ (elementSlot (.var (scope ++ ".index"))).occurrences) : n ∈ own scope := by
    rcases (Term.mem_occurrences_add _ _).1 h with h | h
    · exact scaled h
    · cases h
  cases h with
  | inPlace _ =>
    simp only [List.not_mem_nil, false_and, exists_false, or_false] at hn
    rcases (Term.mem_occurrences_add _ _).1 hn with h | h
    · exact scaled h
    · cases h
  | behindOffset _ _ =>
    simp only [List.not_mem_nil, false_and, exists_false, or_false] at hn
    rcases (Term.mem_occurrences_add _ _).1 hn with h | h
    · cases h
    · rw [Term.occurrences] at h
      exact slot h
  | canonical _ _ =>
    simp only [List.mem_singleton, exists_eq_left, List.mem_append, Term.mem_occurrences_add] at hn
    rcases hn with (h | h) | h | h
    · cases h
    · simp [Term.occurrences] at h
      simp [own, h]
    · rw [Term.occurrences] at h
      exact slot h
    · simp [Term.occurrences] at h
      simp [own, h]

theorem ElementStarts.names_opening (h : ElementStarts strict dynamic headSize scope start checks)
    {n : String} (hn : n ∈ (elementOpening scope checks).names) : n ∈ own scope := by
  simp only [elementOpening, names, level, empty, Act.mentions, Term.occurrences, List.map_nil,
    List.nil_append, List.map_cons, List.flatMap_append, List.flatMap_map, List.flatMap_cons,
    List.flatMap_nil, List.append_nil, List.mem_append, List.mem_flatMap, Option.map_none,
    Option.getD_none, List.mem_singleton] at hn
  rcases hn with ⟨c, hc, hn⟩ | hn | hn
  · exact h.mem_own (.inr ⟨c, hc, List.mem_append.2 hn⟩)
  · rcases (Term.mem_occurrences_add _ _).1 hn with hn | hn
    · have := Term.of_mem_occurrences_scale hn
      simp only [Term.occurrences, List.mem_singleton] at this
      simp [own, this]
    · cases hn
  · simp [own, hn]

theorem ElementStarts.names_body (h : ElementStarts strict dynamic headSize scope start checks)
    (plain : element.Plain) {n : String} (hn : n ∈ (elementBody scope start checks element).names) :
    n ∈ own scope ∨ n ∈ element.names := by
  rcases names_append hn with hn | hn
  · exact .inl (h.names_opening hn)
  · rcases names_rebased plain hn with hn | hn | hn
    · exact .inr hn
    · exact .inl (h.mem_own (.inl hn))
    · simp only [Term.occurrences, List.mem_singleton] at hn
      simp [own, hn]

theorem bound_body : (elementBody scope start checks element).bound = element.bound := by
  rw [elementBody, bound_append, rebased, Base.bound_plan]
  rfl

theorem ElementStarts.known_body (h : ElementStarts strict dynamic headSize scope start checks)
    (sound : element.Sound strict part) (apart : ∀ n ∈ own scope, n ∉ element.bound) :
    ∀ n ∈ (elementBody scope start checks element).names,
      n ∈ cursorNames (elementBody scope start checks element).loops ∨
        n ∉ (elementBody scope start checks element).bound := by
  intro n hn
  rw [bound_body]
  rcases h.names_body sound.plain hn with hn | hn
  · exact .inr (apart n hn)
  · refine .inl (mem_cursorNames_append (.inr ?_))
    rw [rebased_loops, Base.cursorNames_loops]
    exact sound.closed n hn

theorem ElementStarts.plain_body (h : ElementStarts strict dynamic headSize scope start checks)
    (plain : element.Plain) : (elementBody scope start checks element).Plain := by
  refine plain_append ⟨?_, by simp [empty], trivial, h.plain.2, .literal (by simp), by simp [empty]⟩
    (Base.plain_plan ⟨h.plain.1, .var _⟩ element plain)
  exact List.forall_mem_singleton.2 ⟨plain_elementSlot (.var _), .var _⟩

theorem ElementCursors.plain {q : Plan} (h : ElementCursors strict dynamic scope q cursors)
    (plain : q.Plain) : ∀ c ∈ cursors, c.Plain := by
  cases h with
  | memory _ => exact List.forall_mem_singleton.2 ⟨plain_elementsEnd, plain.memorySize⟩
  | both _ hs =>
    simp only [List.mem_cons, List.not_mem_nil, or_false, forall_eq_or_imp, forall_eq]
    exact ⟨⟨plain_elementsEnd, plain.memorySize⟩, plain_elementCount.scale (by decide),
      plain.calldataSize hs⟩

theorem calldataSize_overElements {body : Plan} {t : Term}
    (ht : (overElements strict dynamic headSize scope cursors body).calldataSize = some t) :
    dynamic = false ∧ t = elementCount * .ofNat headSize + .words 1 ∨
      dynamic = true ∧ strict = true ∧ t = .var (scope ++ ".offset") + .words 1 := by
  simp only [overElements] at ht
  cases dynamic with
  | false =>
    rw [Bool.not_false, if_pos rfl] at ht
    exact .inl ⟨rfl, (Option.some.inj ht).symm⟩
  | true =>
    rw [Bool.not_true, if_neg (by simp), Bool.true_and] at ht
    cases strict with
    | false => simp at ht
    | true =>
      rw [if_pos rfl] at ht
      exact .inr ⟨rfl, rfl, (Option.some.inj ht).symm⟩

theorem bound_overElements :
    (overElements strict dynamic headSize scope cursors (elementBody scope start checks element)).bound =
      (scope ++ ".index") :: (cursors.map Cursor.name ++ element.bound) := by
  rw [overElements, bound, boundOf, boundOf, List.append_nil, bound_body]

theorem lengths_overElements :
    (overElements strict dynamic headSize scope cursors (elementBody scope start checks element)).lengths
      (scope ++ ".length") :=
  ⟨scope, bound_overElements ▸ List.mem_cons_self, rfl⟩

theorem plain_overElements (h : ElementStarts strict dynamic headSize scope start checks)
    (hc : ElementCursors strict dynamic scope (element.rebased start (.var (scope ++ ".cursor"))) cursors)
    (plain : element.Plain) :
    (overElements strict dynamic headSize scope cursors (elementBody scope start checks element)).Plain := by
  have moved : (element.rebased start (.var (scope ++ ".cursor"))).Plain :=
    Base.plain_plan ⟨h.plain.1, .var _⟩ element plain
  refine ⟨by simp [empty], ?_, ⟨plain_elementCount, hc.plain moved, h.plain_body plain, trivial⟩,
    by simp [empty], .var _, fun t ht => ?_⟩
  · exact List.forall_mem_singleton.2 ⟨.literal (by simp), .literal (by simp), .ofNat _⟩
  · rcases @calldataSize_overElements strict dynamic headSize scope cursors
      (elementBody scope start checks element) t ht with ⟨_, e⟩ | ⟨_, _, e⟩
    · rw [e]
      exact (plain_scaled plain_elementCount _).sum (.ofNat _)
    · rw [e]
      exact (Term.Plain.var _).sum (.ofNat _)

theorem names_overElements {body : Plan} {n : String}
    (hn : n ∈ (overElements strict dynamic headSize scope cursors body).names) :
    n = scope ++ ".cursor" ∨ (dynamic = true ∧ strict = true) ∧ n = scope ++ ".offset" := by
  rcases List.mem_append.1 hn with h | h
  · simp [overElements, level, empty, lengthCopy, Act.mentions, Term.occurrences, Term.words,
      Term.occurrences_ofNat] at h
  · rcases List.mem_append.1 h with h | h
    · simp only [overElements, Term.occurrences, List.mem_singleton] at h
      exact .inl h
    · cases ht : (overElements strict dynamic headSize scope cursors body).calldataSize with
      | none => simp [ht] at h
      | some t =>
        rw [ht, Option.map_some, Option.getD_some] at h
        rcases calldataSize_overElements ht with ⟨_, e⟩ | ⟨isDynamic, hs, e⟩
        · rw [e] at h
          exfalso
          rcases (Term.mem_occurrences_add _ _).1 h with h | h
          · cases Term.of_mem_occurrences_scale h
          · cases h
        · rw [e] at h
          rcases (Term.mem_occurrences_add _ _).1 h with h | h
          · simp only [Term.occurrences, List.mem_singleton] at h
            exact .inr ⟨⟨isDynamic, hs⟩, h⟩
          · cases h

theorem mem_cursorNames_of_cursor {loop : Loop} {rest : List Loop} {c : Cursor} (h : c ∈ loop.cursors) :
    c.name ∈ cursorNames (loop :: rest) := by
  obtain ⟨_, _, _, cursors, ⟨_, _, _, _, _, _⟩⟩ := loop
  simp only [cursorNames, List.mem_append]
  exact .inl (.inl (List.mem_map_of_mem h))

end Forms

def round (u : Wire) (scope : String) (cursors : List Cursor) (body : Plan) (i : Nat) : Tracer :=
  Tracer.andThen (fun v => Tracer.plan u body (v.set (scope ++ ".index") i)) (Tracer.advance u cursors)

def elementPointer (scope : String) : Pointer :=
  ⟨elementSlot (.var (scope ++ ".index")), .var (scope ++ ".cursor"), some (scope ++ "[]")⟩

section Rounds
variable {strict : Bool} {headSize : Nat} {scope : String} {start : Term} {checks : List Check}
variable {element : Plan} {part : Part} {cursors : List Cursor} {u : Wire} {w : Values}

theorem plan_fst (u : Wire) (p : Plan) (v : Values) : (Tracer.plan u p v).1 = p.last u v := by
  cases p
  rfl

theorem last_body (u : Wire) (w : Values) : (elementBody scope start checks element).last u w =
    (element.rebased start (.var (scope ++ ".cursor"))).last u w :=
  (inner_append _ _ u w).2

theorem forall_acts_round {P : Act → Prop} (hP : Act.Local P)
    (starts : ElementStarts strict part.isDynamic headSize scope start checks)
    (sound : element.Sound strict part) (apart : ∀ n ∈ own scope, n ∉ element.bound) (i : Nat) :
    (∀ a ∈ (round u scope cursors (elementBody scope start checks element) i w).2.flatMap Event.acts,
        P a) ↔
      ((∀ c ∈ checks, P (.check c (w.set (scope ++ ".index") i))) ∧
        P (.point (elementPointer scope) (w.set (scope ++ ".index") i)) ∧
          ∀ a ∈ (element.rebased start (.var (scope ++ ".cursor"))).acts u (w.set (scope ++ ".index") i),
            P a) ∧
        ∀ a ∈ (Tracer.advance u cursors ((element.rebased start (.var (scope ++ ".cursor"))).last u
          (w.set (scope ++ ".index") i))).2.flatMap Event.acts, P a := by
  have opened (v : Values) : (∀ a ∈ (elementOpening scope checks).acts u v, P a) ↔
      (∀ c ∈ checks, P (.check c v)) ∧ P (.point (elementPointer scope) v) := by
    simp [elementOpening, elementPointer, acts, inner, level, last, empty, Tracer.loops, Tracer.done,
      or_imp, forall_and]
  have apart' : ∀ n ∈ (elementOpening scope checks).names,
      n ∉ (element.rebased start (.var (scope ++ ".cursor"))).bound := by
    intro n hn
    rw [rebased, Base.bound_plan]
    exact apart n (starts.names_opening hn)
  simp only [round, Tracer.andThen, List.flatMap_append, List.forall_mem_append, plan_fst, last_body]
  rw [forall_acts_plan hP (starts.known_body sound apart), elementBody, forall_acts_append hP apart',
    opened]
  exact and_congr_left' and_assoc

end Rounds

/-- The cursors before the element that follows `ds`, in an array of `n`. -/
structure At (strict dynamic : Bool) (scope : String) (w : Values) (n : Nat) (ds : List Value) : Prop where
  cursor : w (scope ++ ".cursor") = some (32 + 32 * n + bodySizes ds : Int)
  offset : dynamic = true → strict = true → w (scope ++ ".offset") = some (32 * n + tailSizes ds : Int)
  nonneg : w.Nonneg
  small : (32 + 32 * n + bodySizes ds : Int) ≤ Term.top

/-- What acts do for the elements `xs` of an array, between `ds` and `rest`. -/
structure Stretch (strict : Bool) (lengths : String → Prop) (acts : List Act) (u : Wire) (address : Int)
    (calldataHead : Nat) (ds xs rest : List Value) : Prop where
  good : ∀ a ∈ acts, a.Good u address
    (block (ofWord (ds ++ (xs ++ rest)).length) address (ds ++ (xs ++ rest)))
  slots : ∀ i : Nat, i < 32 * xs.length → ∃ a ∈ acts, a.Touches u (32 + 32 * ds.length + i)
  bodies : ∀ i : Nat, i < bodySizes xs →
    ∃ a ∈ acts, a.Touches u (32 + 32 * (ds ++ (xs ++ rest)).length + bodySizes ds + i)
  spares : ∀ a ∈ acts, a.Spares lengths u (list (ds ++ (xs ++ rest))).Firm
  agrees : (∀ a ∈ acts, a.Agrees u) ↔
    (strict = true → Aligned (u.drop 32) (headSizes ds) (calldataHead + tailSizes ds) xs)
  ready : strict = true ∨ Aligned (u.drop 32) (headSizes ds) (calldataHead + tailSizes ds) xs →
    32 + (32 * (ds ++ (xs ++ rest)).length + bodySizes (ds ++ (xs ++ rest))) < 2 ^ 63 →
    ∀ reach room : Int, 32 + (calldataHead + tailSizes (ds ++ xs)) ≤ reach →
      32 + (32 * (ds ++ (xs ++ rest)).length + bodySizes (ds ++ (xs ++ rest))) ≤ room →
      ∀ a ∈ acts, a.Ready u reach room

theorem Stretch.nil (strict : Bool) (lengths : String → Prop) (u : Wire) (address : Int) (calldataHead : Nat)
    (ds rest : List Value) : Stretch strict lengths [] u address calldataHead ds [] rest where
  good := by simp
  slots := by simp
  bodies := by simp [bodySizes]
  spares := by simp
  agrees := by simp [Aligned]
  ready := by simp

theorem Stretch.append {strict : Bool} {lengths : String → Prop} {acts acts' : List Act} {u : Wire}
    {address : Int} {calldataHead : Nat} {ds xs ys rest : List Value}
    (first : Stretch strict lengths acts u address calldataHead ds xs (ys ++ rest))
    (second : Stretch strict lengths acts' u address calldataHead (ds ++ xs) ys rest) :
    Stretch strict lengths (acts ++ acts') u address calldataHead ds (xs ++ ys) rest := by
  have whole : ds ++ xs ++ (ys ++ rest) = ds ++ (xs ++ ys ++ rest) := by simp
  have whole' : ds ++ (xs ++ (ys ++ rest)) = ds ++ (xs ++ ys ++ rest) := by simp
  obtain ⟨good₁, slots₁, bodies₁, spares₁, agrees₁, ready₁⟩ := first
  obtain ⟨good₂, slots₂, bodies₂, spares₂, agrees₂, ready₂⟩ := second
  rw [whole'] at good₁ bodies₁ spares₁ ready₁
  rw [whole] at good₂ bodies₂ spares₂ ready₂
  have aligned : Aligned (u.drop 32) (headSizes ds) (calldataHead + tailSizes ds) (xs ++ ys) ↔
      Aligned (u.drop 32) (headSizes ds) (calldataHead + tailSizes ds) xs ∧
        Aligned (u.drop 32) (headSizes (ds ++ xs)) (calldataHead + tailSizes (ds ++ xs)) ys := by
    rw [aligned_append, headSizes_append, tailSizes_append, Nat.add_assoc]
  constructor
  · exact List.forall_mem_append.2 ⟨good₁, good₂⟩
  · intro i hi
    rw [List.length_append] at hi
    by_cases low : i < 32 * xs.length
    · obtain ⟨a, ha, touches⟩ := slots₁ i low
      exact ⟨a, List.mem_append_left _ ha, touches⟩
    · obtain ⟨a, ha, touches⟩ := slots₂ (i - 32 * xs.length) (by omega)
      refine ⟨a, List.mem_append_right _ ha, ?_⟩
      rw [List.length_append] at touches
      have place : 32 + 32 * (ds.length : Int) + i =
          32 + 32 * ((ds.length + xs.length : Nat) : Int) + (i - 32 * xs.length : Nat) := by omega
      rwa [place]
  · intro i hi
    rw [bodySizes_append] at hi
    by_cases low : i < bodySizes xs
    · obtain ⟨a, ha, touches⟩ := bodies₁ i low
      exact ⟨a, List.mem_append_left _ ha, touches⟩
    · obtain ⟨a, ha, touches⟩ := bodies₂ (i - bodySizes xs) (by omega)
      refine ⟨a, List.mem_append_right _ ha, ?_⟩
      rw [bodySizes_append] at touches
      have place : (bodySizes ds : Int) + i =
          ((bodySizes ds + bodySizes xs : Nat) : Int) + (i - bodySizes xs : Nat) := by omega
      rwa [Int.add_assoc, place, ← Int.add_assoc]
  · exact List.forall_mem_append.2 ⟨spares₁, spares₂⟩
  · rw [List.forall_mem_append, agrees₁, agrees₂, aligned, ← forall_and]
  · intro found small reach room reaches fits
    rw [← List.append_assoc] at reaches
    have shorter : tailSizes (ds ++ xs) ≤ tailSizes (ds ++ xs ++ ys) := by
      rw [tailSizes_append _ ys]
      omega
    replace found := found.imp_right aligned.1
    exact List.forall_mem_append.2 ⟨ready₁ (found.imp_right And.left) small reach room (by omega) fits,
      ready₂ (found.imp_right And.right) small reach room reaches fits⟩

structure ElementLoop (strict : Bool) (part : Part) (element : Plan) (scope : String) (start : Term)
    (checks : List Check) (cursors : List Cursor) : Prop where
  starts : ElementStarts strict part.isDynamic part.headSize scope start checks
  cursors : ElementCursors strict part.isDynamic scope
    (element.rebased start (.var (scope ++ ".cursor"))) cursors
  sound : element.Sound strict part
  regular : part.Regular
  isBody : part.isWord = false
  apart : ∀ n ∈ own scope, n ∉ element.bound

namespace ElementLoop
variable {strict : Bool} {part : Part} {element : Plan} {scope : String} {start : Term}
variable {checks : List Check} {cursors : List Cursor} {u : Wire} {w : Values} {n : Nat}
variable {address : Int} {ds rest : List Value} {x : Value}

theorem head_of_dynamic (l : ElementLoop strict part element scope start checks cursors)
    (dynamic : part.isDynamic = true) : part.headSize = 32 := l.regular.head_of_dynamic dynamic

/-- The element after `ds` in an array of `n`, when no literal is cut off. -/
structure Comes (strict : Bool) (u : Wire) (part : Part) (n : Nat) (ds : List Value) (x : Value)
    (rest : List Value) : Prop where
  next : Draft.Next strict (u.drop 32) (n * part.headSize) ds part x rest
  length : (ds ++ x :: rest).length = n
  heads : headSizes ds = ds.length * part.headSize
  stride : ds.length = 0 ∨ (part.headSize : Int) < Term.top

theorem cursor_at {dynamic : Bool} (at_ : At strict dynamic scope w n ds) (i : Int) :
    (w.set (scope ++ ".index") i) (scope ++ ".cursor") = some (32 + 32 * n + bodySizes ds : Int) := by
  simp [Values.set, at_.cursor]

theorem offset_at {dynamic : Bool} (at_ : At strict dynamic scope w n ds) (hd : dynamic = true)
    (hs : strict = true) (i : Int) :
    (w.set (scope ++ ".index") i) (scope ++ ".offset") = some (32 * n + tailSizes ds : Int) := by
  simp [Values.set, at_.offset hd hs]

theorem read_start (l : ElementLoop strict part element scope start checks cursors)
    (at_ : At strict part.isDynamic scope w n ds) (comes : Comes strict u part n ds x rest) :
    start.read (w.set (scope ++ ".index") ds.length) u =
      32 + part.start strict (u.drop 32) (headSizes ds) (n * part.headSize + tailSizes ds) := by
  have word := Term.read_word (w.set (scope ++ ".index") ds.length) u
  have heads := comes.heads
  cases l.starts with
  | inPlace dynamic =>
    have scaled : (ds.length : Int) * min (part.headSize : Int) Term.top = ds.length * part.headSize := by
      rcases comes.stride with none | small
      · simp [none]
      · rw [Int.min_eq_left (Int.le_of_lt small)]
    rw [Term.read_add, Term.read_mul, read_index, Term.read_ofNat, scaled, word, Part.start, dynamic,
      heads]
    push_cast
    simp [Int.add_comm]
  | behindOffset dynamic lenient =>
    rw [l.head_of_dynamic dynamic] at heads
    rw [Term.read_add, Term.read_load, read_elementSlot, read_index, word, Part.start, dynamic, lenient,
      heads]
    simp [Int.mul_comm]
  | canonical dynamic hs =>
    rw [Term.read_add, Term.read_var, offset_at at_ dynamic hs, word, Part.start, dynamic, hs,
      l.head_of_dynamic dynamic]
    simp [Int.mul_comm]

theorem placed (l : ElementLoop strict part element scope start checks cursors)
    (at_ : At strict part.isDynamic scope w n ds) (comes : Comes strict u part n ds x rest)
    (address0 : 0 ≤ address) (fits : (x.size : Int) < Term.top ∨ ∃ bound < Term.top,
      ∀ a ∈ (element.rebased start (.var (scope ++ ".cursor"))).acts u
        (w.set (scope ++ ".index") ds.length), a.Within u bound) :
    element.Placed strict start (.var (scope ++ ".cursor")) (w.set (scope ++ ".index") ds.length) u
      address x := by
  have value : x = part.decode (u.drop (start.read (w.set (scope ++ ".index") ds.length) u)) := by
    rw [l.read_start at_ comes, ← Wire.drop_drop]
    exact comes.next.value
  rw [value] at fits ⊢
  refine l.sound.placed l.starts.plain.1 (.var _) (fun m hm => ⟨fun h => ?_, fun h => ?_⟩)
    (at_.nonneg.set (Int.natCast_nonneg _)) address0 fits
  · exact l.apart m (l.starts.mem_own (.inl h)) hm
  · simp only [Term.occurrences, List.mem_singleton] at h
    exact l.apart m (by simp [own, h]) hm

theorem last_own (l : ElementLoop strict part element scope start checks cursors) {m : String}
    (hm : m ∈ own scope) (v : Values) :
    (element.rebased start (.var (scope ++ ".cursor"))).last u v m = v m := by
  refine last_keeps ?_
  rw [rebased, Base.bound_plan]
  exact l.apart m hm

theorem at_round (l : ElementLoop strict part element scope start checks cursors)
    (at_ : At strict part.isDynamic scope w n ds) (comes : Comes strict u part n ds x rest)
    (placed : element.Placed strict start (.var (scope ++ ".cursor"))
      (w.set (scope ++ ".index") ds.length) u address x)
    (small : (32 + 32 * n + bodySizes (ds ++ [x]) : Int) ≤ Term.top) :
    At strict part.isDynamic scope
      (round u scope cursors (elementBody scope start checks element) ds.length w).1 n (ds ++ [x]) := by
  have isBody : x.isWord = false := comes.next.isBody
  have bodies : bodySizes (ds ++ [x]) = bodySizes ds + x.size := by
    simp [bodySizes_append, bodySizes, isBody]
  have moved : (round u scope cursors (elementBody scope start checks element) ds.length w).1 =
      (Tracer.advance u cursors ((element.rebased start (.var (scope ++ ".cursor"))).last u
        (w.set (scope ++ ".index") ds.length))).1 := by
    rw [round, Tracer.andThen, plan_fst, last_body]
  have cursor : ((element.rebased start (.var (scope ++ ".cursor"))).last u
      (w.set (scope ++ ".index") ds.length)) (scope ++ ".cursor") = some (32 + 32 * n + bodySizes ds : Int) :=
    (l.last_own (by simp [own]) _).trans (cursor_at at_ _)
  refine ⟨?_, fun dynamic hs => ?_, ?_, small⟩
  · rw [moved]
    cases l.cursors with
    | memory _ =>
      simp [Tracer.advance, Tracer.moves, Tracer.andThen, Tracer.done, Values.set, cursor, placed.size,
        bodies, Int.add_assoc]
    | both _ _ =>
      simp [Tracer.advance, Tracer.moves, Tracer.andThen, Tracer.done, Values.set, cursor, placed.size,
        bodies, Int.add_assoc]
  · have offset : ((element.rebased start (.var (scope ++ ".cursor"))).last u
        (w.set (scope ++ ".index") ds.length)) (scope ++ ".offset") = some (32 * n + tailSizes ds : Int) :=
      (l.last_own (by simp [own]) _).trans (offset_at at_ dynamic hs _)
    have tails : tailSizes (ds ++ [x]) = tailSizes ds + x.extent := by
      simp [tailSizes_append, tailSizes, comes.next.dynamic, dynamic]
    rw [moved]
    cases l.cursors with
    | memory none => simp [dynamic, hs] at none
    | both _ size =>
      simp [Tracer.advance, Tracer.moves, Tracer.andThen, Tracer.done, Values.set, offset,
        placed.extent _ size, tails, Int.add_assoc]
  · have plain := l.starts.plain_body l.sound.plain
    have moved_plain : (element.rebased start (.var (scope ++ ".cursor"))).Plain :=
      Base.plain_plan ⟨l.starts.plain.1, .var _⟩ element l.sound.plain
    exact Tracer.nonneg_advance (l.cursors.plain moved_plain)
      (Tracer.nonneg_plan _ plain (at_.nonneg.set (Int.natCast_nonneg _)))

theorem forall_acts_moves {P : Act → Prop} (move : ∀ m step v, P (.move m step v))
    (steps : List (String × Int)) (v : Values) :
    ∀ a ∈ (Tracer.moves steps v).2.flatMap Event.acts, P a := by
  induction steps generalizing v with
  | nil => simp [Tracer.moves, Tracer.done]
  | cons s rest ih =>
    simp only [Tracer.moves, Tracer.andThen, List.flatMap_append, List.forall_mem_append]
    exact ⟨by simpa [Event.acts] using move _ _ _, ih _⟩

theorem forall_acts_advance {P : Act → Prop} (read : ∀ t v, P (.read t v))
    (move : ∀ m step v, P (.move m step v)) (v : Values) :
    ∀ a ∈ (Tracer.advance u cursors v).2.flatMap Event.acts, P a := by
  simp only [Tracer.advance, List.flatMap_append, List.forall_mem_append]
  refine ⟨?_, forall_acts_moves move _ v⟩
  intro a ha
  simp only [List.flatMap_map, Event.acts, List.mem_flatMap, List.mem_singleton] at ha
  obtain ⟨c, _, rfl⟩ := ha
  exact read c.step v

theorem agrees_offset (l : ElementLoop strict part element scope start checks cursors)
    (at_ : At strict part.isDynamic scope w n ds) (comes : Comes strict u part n ds x rest)
    (dynamic : part.isDynamic = true) (hs : strict = true) :
    (∀ c ∈ checks, (Act.check c (w.set (scope ++ ".index") ds.length)).Agrees u) ↔
      ((u.drop 32).drop (headSizes ds)).Matches (ofWord (n * part.headSize + tailSizes ds)) := by
  have heads := comes.heads
  rw [l.head_of_dynamic dynamic] at heads
  have place : (elementSlot (.var (scope ++ ".index"))).read (w.set (scope ++ ".index") ds.length) u =
      32 + headSizes ds := by
    rw [read_elementSlot, read_index, heads]
    push_cast
    omega
  cases l.starts with
  | inPlace static => simp [dynamic] at static
  | behindOffset _ lenient => simp [hs] at lenient
  | canonical _ _ =>
    rw [List.forall_mem_singleton, Act.Agrees, Term.read_load, place, Term.read_var, offset_at at_ dynamic hs,
      ← Wire.word_drop]
    have same : ((n * part.headSize + tailSizes ds : Nat) : Int) = 32 * n + tailSizes ds := by
      rw [l.head_of_dynamic dynamic]
      push_cast
      omega
    rw [Option.getD_some, ← same]
    exact ⟨Wire.matches_of_word, Wire.word_of_matches comes.next.offset_small⟩

/-- The check of an offset and the checks of the element together ask for the element in its
place. -/
theorem agrees_iff (l : ElementLoop strict part element scope start checks cursors)
    (at_ : At strict part.isDynamic scope w n ds) (comes : Comes strict u part n ds x rest) :
    (∀ c ∈ checks, (Act.check c (w.set (scope ++ ".index") ds.length)).Agrees u) ∧ (strict = true →
        ((u.drop 32).drop (part.start strict (u.drop 32) (headSizes ds)
          (n * part.headSize + tailSizes ds))).Matches x.cells) ↔
      (strict = true →
        Aligned (u.drop 32) (headSizes ds) (n * part.headSize + tailSizes ds) [x]) := by
  have isDynamic := comes.next.dynamic
  cases l.starts with
  | inPlace dynamic => simp [Draft.aligned_singleton, isDynamic, dynamic, Part.start]
  | behindOffset dynamic lenient => simp [lenient]
  | canonical dynamic hs =>
    rw [l.agrees_offset at_ comes dynamic hs]
    simp [Draft.aligned_singleton, isDynamic, dynamic, hs, Part.start]

theorem ready_start (l : ElementLoop strict part element scope start checks cursors)
    (at_ : At strict part.isDynamic scope w n ds) (comes : Comes strict u part n ds x rest)
    {reach : Int}
    (found : strict = true ∨ Aligned (u.drop 32) (headSizes ds) (n * part.headSize + tailSizes ds) [x])
    (small : n * part.headSize + tailSizes ds < 2 ^ 63)
    (reaches : 32 + (n * part.headSize + tailSizes ds : Nat) ≤ reach) (room : Int) :
    start.Ready (w.set (scope ++ ".index") ds.length) u reach ∧
      ∀ c ∈ checks, (Act.check c (w.set (scope ++ ".index") ds.length)).Ready u reach room := by
  have index : (Term.var (scope ++ ".index")).Ready (w.set (scope ++ ".index") ds.length) u reach :=
    .var (x := ds.length) (by simp [Values.set]) (by omega)
  have heads := comes.heads
  have head_le := comes.next.head_le
  have place (dynamic : part.isDynamic = true) : (elementSlot (.var (scope ++ ".index"))).read
      (w.set (scope ++ ".index") ds.length) u = 32 + headSizes ds := by
    rw [read_elementSlot, read_index, heads, l.head_of_dynamic dynamic]
    push_cast
    omega
  have low (dynamic : part.isDynamic = true) : (elementSlot (.var (scope ++ ".index"))).read
      (w.set (scope ++ ".index") ds.length) u < reach := by
    rw [headSize, comes.next.dynamic.trans dynamic, if_pos rfl] at head_le
    rw [place dynamic]
    omega
  cases l.starts with
  | inPlace dynamic => exact ⟨index.scale.add (.ofNat _), by simp⟩
  | behindOffset dynamic lenient =>
    have aligned := found.resolve_left (by simp [lenient])
    have offset := Wire.word_of_matches comes.next.offset_small
      ((Draft.aligned_singleton.1 aligned).1 (comes.next.dynamic.trans dynamic))
    refine ⟨Term.Ready.add (.ofNat _) ((ready_elementSlot index).load (low dynamic) ?_), by simp⟩
    rw [place dynamic, ← Wire.word_drop, offset]
    omega
  | canonical dynamic hs =>
    have offset : (Term.var (scope ++ ".offset")).Ready (w.set (scope ++ ".index") ds.length) u reach :=
      .var (offset_at at_ dynamic hs _) (by omega)
    refine ⟨Term.Ready.add (.ofNat _) offset, ?_⟩
    simp only [List.mem_singleton, forall_eq]
    refine ⟨⟨.load (plain_elementSlot (.var _)), .var _⟩, ⟨_, rfl, ready_elementSlot index, low dynamic⟩,
      offset, ?_⟩
    rw [Term.read_var, offset_at at_ dynamic hs, Option.getD_some]
    rw [l.head_of_dynamic dynamic] at reaches
    push_cast at reaches
    omega

theorem ready_advance (l : ElementLoop strict part element scope start checks cursors)
    (at_ : At strict part.isDynamic scope w n ds) (comes : Comes strict u part n ds x rest)
    (placed : element.Placed strict start (.var (scope ++ ".cursor"))
      (w.set (scope ++ ".index") ds.length) u address x) {reach room : Int}
    (size : (element.rebased start (.var (scope ++ ".cursor"))).memorySize.Ready
      ((element.rebased start (.var (scope ++ ".cursor"))).last u (w.set (scope ++ ".index") ds.length))
      u reach)
    (extent : ∀ t, (element.rebased start (.var (scope ++ ".cursor"))).calldataSize = some t →
      t.Ready ((element.rebased start (.var (scope ++ ".cursor"))).last u
        (w.set (scope ++ ".index") ds.length)) u reach)
    (reaches : 32 + (n * part.headSize + tailSizes (ds ++ [x]) : Nat) ≤ reach)
    (fits : (32 + 32 * n + bodySizes (ds ++ [x]) : Int) ≤ room) :
    ∀ a ∈ (Tracer.advance u cursors ((element.rebased start (.var (scope ++ ".cursor"))).last u
      (w.set (scope ++ ".index") ds.length))).2.flatMap Event.acts, a.Ready u reach room := by
  have moved_plain : (element.rebased start (.var (scope ++ ".cursor"))).Plain :=
    Base.plain_plan ⟨l.starts.plain.1, .var _⟩ element l.sound.plain
  have bodies : bodySizes (ds ++ [x]) = bodySizes ds + x.size := by
    simp [bodySizes_append, bodySizes, comes.next.isBody]
  have size_read := placed.size
  have cursor : ((element.rebased start (.var (scope ++ ".cursor"))).last u
      (w.set (scope ++ ".index") ds.length)) (scope ++ ".cursor") =
        some (32 + 32 * n + bodySizes ds : Int) :=
    (l.last_own (by simp [own]) _).trans (cursor_at at_ _)
  have first : (Act.read (element.rebased start (.var (scope ++ ".cursor"))).memorySize
      ((element.rebased start (.var (scope ++ ".cursor"))).last u
        (w.set (scope ++ ".index") ds.length))).Ready u reach room :=
    ⟨moved_plain.memorySize, size, .inl (by omega)⟩
  have offset (dynamic : part.isDynamic = true) (hs : strict = true) :
      ((element.rebased start (.var (scope ++ ".cursor"))).last u (w.set (scope ++ ".index") ds.length))
        (scope ++ ".offset") = some (32 * n + tailSizes ds : Int) :=
    (l.last_own (by simp [own]) _).trans (offset_at at_ dynamic hs _)
  have extent_read := placed.extent
  generalize (element.rebased start (.var (scope ++ ".cursor"))).last u
    (w.set (scope ++ ".index") ds.length) = L at *
  have move (step : Int) (hs : step = x.size) : (Act.move (scope ++ ".cursor") step L).Ready u reach room :=
    ⟨_, cursor, by omega, by omega, .inl (by omega)⟩
  cases l.cursors with
  | memory _ =>
    simp only [Tracer.advance, Tracer.moves, Tracer.andThen, Tracer.done, List.map_cons, List.map_nil,
      List.flatMap_append, List.flatMap_cons, List.flatMap_nil, Event.acts, List.append_nil,
      List.forall_mem_append, List.forall_mem_singleton]
    exact ⟨first, move _ size_read⟩
  | @both tracked t ht =>
    obtain ⟨dynamic, hs⟩ := Bool.and_eq_true_iff.1 tracked
    have tails : tailSizes (ds ++ [x]) = tailSizes ds + x.extent := by
      simp [tailSizes_append, tailSizes, comes.next.dynamic, dynamic]
    rw [l.head_of_dynamic dynamic, tails] at reaches
    have value := extent_read t ht
    simp only [Tracer.advance, Tracer.moves, Tracer.andThen, Tracer.done, List.map_cons, List.map_nil,
      List.flatMap_append, List.flatMap_cons, List.flatMap_nil, Event.acts, List.append_nil,
      List.forall_mem_append, List.forall_mem_singleton]
    refine ⟨⟨first, moved_plain.calldataSize ht, extent t ht, .inr (by omega)⟩, move _ size_read,
      32 * n + tailSizes ds, ?_, by omega, by omega, .inr (by omega)⟩
    simp [Values.set, offset dynamic hs]

theorem exists_acts_round (l : ElementLoop strict part element scope start checks cursors) {P : Act → Prop}
    (hP : Act.Local P) {i : Nat} (found : P (.point (elementPointer scope) (w.set (scope ++ ".index") i)) ∨
      ∃ a ∈ (element.rebased start (.var (scope ++ ".cursor"))).acts u (w.set (scope ++ ".index") i), P a) :
    ∃ a ∈ (round u scope cursors (elementBody scope start checks element) i w).2.flatMap Event.acts, P a := by
  by_contra none
  obtain ⟨⟨_, pointer, inner⟩, _⟩ := (forall_acts_round hP.not l.starts l.sound l.apart i).1
    fun a ha h => none ⟨a, ha, h⟩
  rcases found with h | ⟨a, ha, h⟩
  · exact pointer h
  · exact inner a ha h

theorem read_slot (w : Values) (i : Nat) (u : Wire) :
    (elementPointer scope).dst.read (w.set (scope ++ ".index") i) u = 32 + 32 * i := by
  rw [elementPointer, read_elementSlot, read_index]

theorem read_cursor {dynamic : Bool} (at_ : At strict dynamic scope w n ds) (i : Int) (u : Wire) :
    (Term.var (scope ++ ".cursor")).read (w.set (scope ++ ".index") i) u = 32 + 32 * n + bodySizes ds := by
  rw [Term.read_var, cursor_at at_]
  rfl

theorem Comes.bodySizes_eq (comes : Comes strict u part n ds x rest) :
    bodySizes (ds ++ [x]) = bodySizes ds + x.size ∧
      bodySizes (ds ++ x :: rest) = bodySizes ds + (x.size + bodySizes rest) := by
  simp [bodySizes_append, bodySizes, comes.next.isBody]

/-- On a canonical encoding, or where offsets are not followed, no term of a round lacks a value. -/
theorem ready_round (l : ElementLoop strict part element scope start checks cursors)
    (at_ : At strict part.isDynamic scope w n ds) (comes : Comes strict u part n ds x rest)
    (placed : element.Placed strict start (.var (scope ++ ".cursor"))
      (w.set (scope ++ ".index") ds.length) u address x)
    (found : strict = true ∨ Aligned (u.drop 32) (headSizes ds) (n * part.headSize + tailSizes ds) [x])
    (small : 32 + (32 * n + bodySizes (ds ++ x :: rest)) < 2 ^ 63) {reach room : Int}
    (reaches : 32 + ((n * part.headSize : Nat) + tailSizes (ds ++ [x])) ≤ reach)
    (fits : 32 + (32 * n + bodySizes (ds ++ x :: rest)) ≤ room) :
    ∀ a ∈ (round u scope cursors (elementBody scope start checks element) ds.length w).2.flatMap Event.acts,
      a.Ready u reach room := by
  have length := comes.length
  have encoded := extents_le (ds ++ x :: rest)
  rw [extents_eq, comes.next.heads, tailSizes_append, length] at encoded
  have reach_le := comes.next.reach_le
  have tails_le : tailSizes ds ≤ tailSizes (ds ++ [x]) := by
    rw [tailSizes_append]
    omega
  obtain ⟨bodies_done, bodies_all⟩ := comes.bodySizes_eq
  rw [bodies_all] at small fits encoded
  have reaches_start : 32 + (n * part.headSize + tailSizes ds : Nat) ≤ reach := by omega
  obtain ⟨start_ready, checks_ready⟩ := l.ready_start at_ comes found (by omega) reaches_start room
  obtain ⟨place, found⟩ := comes.next.start_eq found
  have cursor_ready : (Term.var (scope ++ ".cursor")).Ready (w.set (scope ++ ".index") ds.length) u reach :=
    .var (cursor_at at_ _) (by omega)
  obtain ⟨inner, size_ready, extent_ready⟩ := placed.ready
    (by rw [l.read_start at_ comes, ← Wire.drop_drop]; exact found) (by omega) reach room start_ready
    cursor_ready (by rw [l.read_start at_ comes, place]; omega) (by rw [read_cursor at_]; omega)
  rw [forall_acts_round (Act.local_ready _ _ _) l.starts l.sound l.apart]
  refine ⟨⟨checks_ready, ⟨⟨plain_elementSlot (.var _), .var _⟩, ?_, cursor_ready, ?_⟩, inner⟩,
    l.ready_advance at_ comes placed size_ready extent_ready reaches (by omega)⟩
  · exact ready_elementSlot (.var (x := ds.length) (by simp [Values.set]) (by omega))
  · rw [elementPointer, read_cursor at_]
    omega

theorem stretch_round (l : ElementLoop strict part element scope start checks cursors)
    (at_ : At strict part.isDynamic scope w n ds) (comes : Comes strict u part n ds x rest)
    (placed : element.Placed strict start (.var (scope ++ ".cursor"))
      (w.set (scope ++ ".index") ds.length) u address x) :
    Stretch strict element.lengths ((round u scope cursors (elementBody scope start checks element)
      ds.length w).2.flatMap Event.acts) u address (n * part.headSize) ds [x] rest := by
  have isBody := comes.next.isBody
  have length := comes.length
  constructor
  · rw [List.singleton_append, length, forall_acts_round (Act.local_good _ _ _) l.starts l.sound l.apart]
    refine ⟨⟨fun _ _ => trivial, Act.good_point isBody ?_ ?_, ?_⟩,
      forall_acts_advance (fun _ _ => trivial) (fun _ _ _ => trivial) _⟩
    · rw [read_slot, length_ofWord]
      rfl
    · rw [length_ofWord, length]
      exact read_cursor at_ _ u
    · obtain ⟨left, right, image_length, image⟩ := block_body (ofWord n) address ds isBody rest
      rw [image]
      refine placed.good left right ?_
      rw [read_cursor at_, image_length, length_ofWord, length]
      push_cast
      rfl
  · intro i hi
    refine l.exists_acts_round (Act.local_touches _ _) (.inl ?_)
    simp only [Act.Touches, read_slot]
    simp only [List.length_singleton] at hi
    omega
  · intro i hi
    rw [show bodySizes [x] = x.size by simp [bodySizes, isBody]] at hi
    refine l.exists_acts_round (Act.local_touches _ _) (.inr ?_)
    rw [List.singleton_append, length]
    have touched := placed.covers i hi
    rwa [read_cursor at_] at touched
  · rw [List.singleton_append, forall_acts_round (Act.local_spares _ _ _) l.starts l.sound l.apart]
    refine ⟨⟨fun _ _ => trivial, trivial, placed.spares _ ?_⟩,
      forall_acts_advance (fun _ _ => trivial) (fun _ _ _ => trivial) _⟩
    intro place low high firm
    rw [read_cursor at_, Firm, length] at firm
    rcases firm with first | firm
    · omega
    · exact firm.body isBody (by omega) low high
  · rw [forall_acts_round (Act.local_agrees _) l.starts l.sound l.apart, placed.agrees,
      l.read_start at_ comes, ← Wire.drop_drop, ← l.agrees_iff at_ comes]
    have quiet : ∀ a ∈ (Tracer.advance u cursors ((element.rebased start
        (.var (scope ++ ".cursor"))).last u (w.set (scope ++ ".index") ds.length))).2.flatMap Event.acts,
        a.Agrees u := forall_acts_advance (fun _ _ => trivial) (fun _ _ _ => trivial) _
    exact ⟨fun all => ⟨all.1.1, all.1.2.2⟩, fun both => ⟨⟨both.1, trivial, both.2⟩, quiet⟩⟩
  · intro found small reach room reaches fits
    rw [List.singleton_append, length] at small fits
    exact l.ready_round at_ comes placed found small reaches fits

theorem comes_of_walk (l : ElementLoop strict part element scope start checks cursors) {count : Nat}
    (at_ : At strict part.isDynamic scope w n ds) (stride : (part.headSize : Int) < Term.top)
    (length : ds.length + (count + 1) = n) (heads : headSizes ds = ds.length * part.headSize) :
    ∃ x rest, rest = Part.walk strict (u.drop 32) (headSizes (ds ++ [x]))
        (n * part.headSize + tailSizes (ds ++ [x])) (List.replicate count part) ∧
      Part.walk strict (u.drop 32) (headSizes ds) (n * part.headSize + tailSizes ds)
        (List.replicate (count + 1) part) = x :: rest ∧
      headSizes (ds ++ [x]) = (ds ++ [x]).length * part.headSize ∧ Comes strict u part n ds x rest := by
  have regular : ∀ p ∈ List.replicate count part, p.Regular :=
    fun p hp => List.eq_of_mem_replicate hp ▸ l.regular
  obtain ⟨x, value⟩ : ∃ x, x = part.decode ((u.drop 32).drop
      (part.start strict (u.drop 32) (headSizes ds) (n * part.headSize + tailSizes ds))) := ⟨_, rfl⟩
  have isBody : x.isWord = false := by rw [value, l.regular.isWord, l.isBody]
  have dynamic : x.isDynamic = part.isDynamic := by rw [value, l.regular.isDynamic]
  have head : x.headSize = part.headSize := by rw [value, l.regular.headSize]
  refine ⟨x, _, rfl, ?_, ?_, ⟨⟨value, isBody, dynamic, ?_, ?_⟩, ?_, heads, .inr stride⟩⟩
  · rw [List.replicate_succ, Part.walk, ← value, headSizes_append, tailSizes_append]
    cases h : part.isDynamic <;> simp [headSizes, tailSizes, head, dynamic, h, Nat.add_assoc]
  · rw [headSizes_append, heads, List.length_append, Nat.add_mul]
    simp [headSizes, head]
  · rw [List.append_cons, headSizes_append, Part.headSizes_walk regular, Tree.headSizes_replicate,
      headSizes_append, headSizes, headSizes, heads, head, ← length, Nat.add_mul, Nat.add_mul, Nat.one_mul]
    omega
  · have at_small := at_.small
    have tails_le := tailSizes_le ds
    rw [Term.top] at at_small stride
    have product : n * part.headSize ≤ 2 ^ 58 * 2 ^ 63 := Nat.mul_le_mul (by omega) (by omega)
    omega
  · rw [List.length_append, List.length_cons, Part.length_walk, List.length_replicate]
    omega

theorem shows_rounds (l : ElementLoop strict part element scope start checks cursors)
    (address0 : 0 ≤ address) (stride : n ≠ 0 → (part.headSize : Int) < Term.top) (count : Nat)
    (ds : List Value) (w : Values) (at_ : At strict part.isDynamic scope w n ds)
    (length : ds.length + count = n) (heads : headSizes ds = ds.length * part.headSize)
    (fits : ((32 + (32 * n + bodySizes (ds ++ Part.walk strict (u.drop 32) (headSizes ds)
        (n * part.headSize + tailSizes ds) (List.replicate count part))) : Nat) : Int) < Term.top ∨
      ∃ bound < Term.top, ∀ a ∈ (Tracer.rounds (round u scope cursors
        (elementBody scope start checks element)) count ds.length w).2.flatMap Event.acts,
          a.Within u bound) :
    At strict part.isDynamic scope (Tracer.rounds (round u scope cursors
        (elementBody scope start checks element)) count ds.length w).1 n
        (ds ++ Part.walk strict (u.drop 32) (headSizes ds) (n * part.headSize + tailSizes ds)
          (List.replicate count part)) ∧
      Stretch strict element.lengths ((Tracer.rounds (round u scope cursors
        (elementBody scope start checks element)) count ds.length w).2.flatMap Event.acts) u address
        (n * part.headSize) ds (Part.walk strict (u.drop 32) (headSizes ds)
          (n * part.headSize + tailSizes ds) (List.replicate count part)) [] := by
  induction count generalizing ds w with
  | zero =>
    refine ⟨?_, Stretch.nil ..⟩
    simpa [Tracer.rounds, Tracer.done, Part.walk] using at_
  | succ count ih =>
    obtain ⟨x, rest, hrest, walked, heads', comes⟩ := l.comes_of_walk at_ (stride (by omega)) length heads
    obtain ⟨next_bodies, all_bodies⟩ := comes.bodySizes_eq
    have at_small := at_.small
    rw [walked] at fits ⊢
    simp only [Tracer.rounds, Tracer.andThen, List.flatMap_append] at fits ⊢
    have own_fits := Act.fits_of_fits ((element.rebased start (.var (scope ++ ".cursor"))).acts u
      (w.set (scope ++ ".index") ds.length)) fits fun bound within =>
        ((forall_acts_round (Act.local_within u bound) l.starts l.sound l.apart ds.length).1
          (List.forall_mem_append.1 within).1).1.2.2
    have placed := l.placed at_ comes address0 (own_fits.imp_left fun small => by omega)
    have next_small : (32 + 32 * n + bodySizes (ds ++ [x]) : Int) ≤ Term.top := by
      rcases own_fits with small | ⟨bound, low, within⟩
      · omega
      · by_cases none : x.size = 0
        · omega
        · obtain ⟨a, ha, touches⟩ := placed.covers (x.size - 1) (by omega)
          have := touches.lt (within a ha)
          rw [read_cursor at_] at this
          omega
    have step := l.at_round at_ comes placed next_small
    have first := l.stretch_round at_ comes placed
    rw [List.append_cons] at fits ⊢
    have index : (ds ++ [x]).length = ds.length + 1 := by simp
    have later := ih (ds ++ [x]) (round u scope cursors (elementBody scope start checks element)
      ds.length w).1 step (by omega) heads'
    rw [← hrest, index] at later
    obtain ⟨last, second⟩ := later (Act.fits_of_fits _ fits fun _ within =>
      (List.forall_mem_append.1 within).2)
    rw [← List.append_nil rest] at first
    exact ⟨last, first.append second⟩

/-- Every round takes place, whatever the values before it are. -/
theorem exists_round {round : Nat → Tracer} (nonneg : ∀ i (v : Values), v.Nonneg → (round i v).1.Nonneg)
    (count index : Nat) {v : Values} (hv : v.Nonneg) {i : Nat} (low : index ≤ i)
    (high : i < index + count) : ∃ v' : Values, v'.Nonneg ∧
      ∀ e ∈ (round i v').2, e ∈ (Tracer.rounds round count index v).2 := by
  induction count generalizing index v with
  | zero => omega
  | succ count ih =>
    by_cases now : i = index
    · exact ⟨v, hv, fun e he => List.mem_append_left _ (now ▸ he)⟩
    · obtain ⟨v', hv', found⟩ := ih (index + 1) (nonneg index v hv) (by omega) (by omega)
      exact ⟨v', hv', fun e he => List.mem_append_right _ (found e he)⟩

/-- An array whose writes end below the largest word is not too long, and neither are its
elements. -/
theorem small_of_within (l : ElementLoop strict part element scope start checks cursors) {v : Values}
    (hv : v.Nonneg) {bound : Int} (low : bound < Term.top) (some : n ≠ 0)
    (within : ∀ a ∈ (Tracer.rounds (round u scope cursors (elementBody scope start checks element))
      n 0 v).2.flatMap Event.acts, a.Within u bound) :
    (32 + 32 * n : Int) ≤ bound ∧ (part.headSize : Int) < Term.top := by
  have moved_plain : (element.rebased start (.var (scope ++ ".cursor"))).Plain :=
    Base.plain_plan ⟨l.starts.plain.1, .var _⟩ element l.sound.plain
  have nonneg (i : Nat) (v : Values) (hv : v.Nonneg) :
      (round u scope cursors (elementBody scope start checks element) i v).1.Nonneg :=
    Tracer.nonneg_advance (l.cursors.plain moved_plain)
      (Tracer.nonneg_plan _ (l.starts.plain_body l.sound.plain) (hv.set (Int.natCast_nonneg i)))
  obtain ⟨w, hw, found⟩ := exists_round nonneg n 0 hv (Nat.zero_le (n - 1)) (by omega)
  obtain ⟨⟨_, pointer, inner⟩, _⟩ :=
    (forall_acts_round (Act.local_within u bound) l.starts l.sound l.apart (n - 1)).1 fun a ha => by
      obtain ⟨e, he, ha⟩ := List.mem_flatMap.1 ha
      exact within a (List.mem_flatMap.2 ⟨e, found e he, ha⟩)
  simp only [Act.Within, elementPointer, read_elementSlot, read_index] at pointer
  refine ⟨by omega, ?_⟩
  cases dynamic : part.isDynamic with
  | true =>
    rw [l.head_of_dynamic dynamic, Term.top]
    decide
  | false =>
    have sampled := Draft.withinSample_rebased
      (Draft.withinSample_of_acts moved_plain (hw.set (Int.natCast_nonneg _)) inner)
    have zero : (Term.var (scope ++ ".cursor")).sample 0 = 0 := rfl
    rw [zero, Int.sub_zero] at sampled
    have written := l.sound.written bound (by omega) sampled.1 sampled.2
    have floor := l.sound.floor dynamic
    omega

theorem at_start (l : ElementLoop strict part element scope start checks cursors) {v : Values}
    (hv : v.Nonneg) (small : (32 + 32 * u.number 0 32 : Int) ≤ Term.top) :
    At strict part.isDynamic scope (Tracer.start u cursors v).1 (u.number 0 32) [] := by
  have moved_plain : (element.rebased start (.var (scope ++ ".cursor"))).Plain :=
    Base.plain_plan ⟨l.starts.plain.1, .var _⟩ element l.sound.plain
  have nonneg := Tracer.nonneg_start (w := u) (l.cursors.plain moved_plain) hv
  have offset (w : Values) : (elementCount * .literal 32).read w u = 32 * u.number 0 32 := by
    rw [Term.read_mul, read_elementCount, Term.read_literal, show (32 : Int64).toInt = 32 from rfl]
    omega
  refine ⟨?_, fun dynamic hs => ?_, nonneg, by simpa [bodySizes] using small⟩
  · cases l.cursors with
    | memory _ =>
      simp [Tracer.start, Tracer.andThen, Tracer.done, Values.set, read_elementsEnd, bodySizes]
    | both _ _ =>
      simp [Tracer.start, Tracer.andThen, Tracer.done, Values.set, read_elementsEnd, bodySizes]
  · cases l.cursors with
    | memory none => simp [dynamic, hs] at none
    | both _ _ => simp [Tracer.start, Tracer.andThen, Tracer.done, Values.set, offset, tailSizes]

theorem forall_acts_start {P : Act → Prop} (read : ∀ t v, P (.read t v)) (v : Values) :
    ∀ a ∈ (Tracer.start u cursors v).2.flatMap Event.acts, P a := by
  induction cursors generalizing v with
  | nil => simp [Tracer.start, Tracer.done]
  | cons c rest ih =>
    simp only [Tracer.start, Tracer.andThen, List.flatMap_append, List.forall_mem_append]
    exact ⟨by simpa [Event.acts] using read _ _, ih _⟩

theorem ready_started (l : ElementLoop strict part element scope start checks cursors) {v : Values}
    {reach room : Int} (low : 0 < reach) (small : u.number 0 32 < 2 ^ 63)
    (fits : (32 + 32 * u.number 0 32 : Int) ≤ room) :
    ∀ a ∈ (Tracer.start u cursors v).2.flatMap Event.acts, a.Ready u reach room := by
  have first (v : Values) : (Act.read elementsEnd v).Ready u reach room :=
    ⟨plain_elementsEnd, ready_elementsEnd low small, .inl (by rw [read_elementsEnd]; exact fits)⟩
  have second (v : Values) : (Act.read (elementCount * .literal 32) v).Ready u reach room := by
    refine ⟨plain_elementCount.scale (by decide), (ready_elementCount low small).scale, .inl ?_⟩
    rw [Term.read_mul, read_elementCount, Term.read_literal, show (32 : Int64).toInt = 32 from rfl]
    omega
  cases l.cursors with
  | memory _ => simpa [Tracer.start, Tracer.andThen, Tracer.done, Event.acts] using first _
  | both _ _ =>
    simpa [Tracer.start, Tracer.andThen, Tracer.done, Event.acts] using ⟨first _, second _⟩

def allRounds (u : Wire) (scope : String) (cursors : List Cursor) (body : Plan) (v : Values) :
    Values × List Event :=
  Tracer.rounds (round u scope cursors body) (u.number 0 32) 0 (Tracer.start u cursors v).1

theorem last_overElements (dynamic : Bool) (headSize : Nat) (body : Plan) (u : Wire) (v : Values) :
    (overElements strict dynamic headSize scope cursors body).last u v =
      (allRounds u scope cursors body v).1 := by
  have count : (elementCount.read v u).toNat = u.number 0 32 := rfl
  simp only [overElements, last, Tracer.loops, Tracer.andThen, Tracer.note, Tracer.done, count]
  rfl

theorem loops_overElements (dynamic : Bool) (headSize : Nat) (body : Plan) (u : Wire) (v : Values) :
    (Tracer.loops u (overElements strict dynamic headSize scope cursors body).loops v).2 =
      .count elementCount v :: ((Tracer.start u cursors v).2 ++ (allRounds u scope cursors body v).2) := by
  have count : (elementCount.read v u).toNat = u.number 0 32 := rfl
  simp only [overElements, Tracer.loops, Tracer.andThen, Tracer.note, Tracer.done, count, List.append_nil,
    List.singleton_append]
  rfl

theorem acts_overElements (dynamic : Bool) (headSize : Nat) (body : Plan) (u : Wire) (v : Values) :
    (overElements strict dynamic headSize scope cursors body).acts u v =
      .count elementCount v :: ((Tracer.start u cursors v).2.flatMap Event.acts ++
        ((allRounds u scope cursors body v).2.flatMap Event.acts ++
          [.copy (lengthCopy scope) ((overElements strict dynamic headSize scope cursors body).last u v)])) := by
  rw [acts, inner, loops_overElements, List.flatMap_cons, List.flatMap_append]
  simp [overElements, level, empty, Event.acts]

theorem forall_acts_overElements {dynamic : Bool} {headSize : Nat} {body : Plan} {v : Values}
    {P : Act → Prop} (count : P (.count elementCount v)) (read : ∀ a ∈ (Tracer.start u cursors v).2.flatMap
      Event.acts, P a) (rounds : ∀ a ∈ (allRounds u scope cursors body v).2.flatMap Event.acts, P a)
    (copied : ∀ w, P (.copy (lengthCopy scope) w)) :
    ∀ a ∈ (overElements strict dynamic headSize scope cursors body).acts u v, P a := by
  rw [acts_overElements, List.forall_mem_cons, List.forall_mem_append, List.forall_mem_append,
    List.forall_mem_singleton]
  exact ⟨count, read, rounds, copied _⟩

theorem mem_acts_overElements {dynamic : Bool} {headSize : Nat} {body : Plan} {v : Values} {a : Act}
    (ha : a ∈ (allRounds u scope cursors body v).2.flatMap Event.acts) :
    a ∈ (overElements strict dynamic headSize scope cursors body).acts u v := by
  rw [acts_overElements]
  exact List.mem_cons_of_mem _ (List.mem_append_right _ (List.mem_append_left _ ha))

structure Looped (strict : Bool) (part : Part) (lengths : String → Prop) (scope : String) (u : Wire)
    (address : Int) (rounds : Values × List Event) (vs : List Value) : Prop where
  length : vs.length = u.number 0 32
  heads : headSizes vs = u.number 0 32 * part.headSize
  static : part.isDynamic = false → tailSizes vs = 0
  stride : u.number 0 32 ≠ 0 → (part.headSize : Int) < Term.top
  last : At strict part.isDynamic scope rounds.1 (u.number 0 32) vs
  shown : Stretch strict lengths (rounds.2.flatMap Event.acts) u address (u.number 0 32 * part.headSize)
    [] vs []

theorem small_of_fits (l : ElementLoop strict part element scope start checks cursors) {v : Values}
    (hv : v.Nonneg) (fits : ((Value.list (Part.tuple strict (List.replicate (u.number 0 32) part)
        (u.drop 32))).size : Int) < Term.top ∨ ∃ bound < Term.top, ∀ a ∈ (allRounds u scope cursors
          (elementBody scope start checks element) v).2.flatMap Event.acts, a.Within u bound) :
    (32 + 32 * u.number 0 32 : Int) ≤ Term.top ∧
      (u.number 0 32 ≠ 0 → (part.headSize : Int) < Term.top) := by
  have moved_plain : (element.rebased start (.var (scope ++ ".cursor"))).Plain :=
    Base.plain_plan ⟨l.starts.plain.1, .var _⟩ element l.sound.plain
  rcases fits with small | ⟨bound, low, within⟩
  · have encoded := extents_le (Part.tuple strict (List.replicate (u.number 0 32) part) (u.drop 32))
    rw [extents_eq, Tree.headSizes_tuple_replicate l.regular, Tree.length_tuple_replicate] at encoded
    rw [Value.size, Tree.length_tuple_replicate] at small
    refine ⟨by omega, fun some => ?_⟩
    have := Nat.le_mul_of_pos_left part.headSize (Nat.pos_of_ne_zero some)
    omega
  · by_cases none : u.number 0 32 = 0
    · rw [Term.top]
      omega
    · have := l.small_of_within (Tracer.nonneg_start (l.cursors.plain moved_plain) hv) low none within
      exact ⟨by omega, fun _ => this.2⟩

theorem looped (l : ElementLoop strict part element scope start checks cursors) {v : Values}
    (hv : v.Nonneg) (address0 : 0 ≤ address)
    (fits : ((Value.list (Part.tuple strict (List.replicate (u.number 0 32) part) (u.drop 32))).size : Int)
        < Term.top ∨ ∃ bound < Term.top, ∀ a ∈ (allRounds u scope cursors
          (elementBody scope start checks element) v).2.flatMap Event.acts, a.Within u bound) :
    Looped strict part element.lengths scope u address
      (allRounds u scope cursors (elementBody scope start checks element) v)
      (Part.tuple strict (List.replicate (u.number 0 32) part) (u.drop 32)) := by
  obtain ⟨short, stride⟩ := l.small_of_fits hv fits
  have whole : Part.tuple strict (List.replicate (u.number 0 32) part) (u.drop 32) =
      Part.walk strict (u.drop 32) (headSizes []) (u.number 0 32 * part.headSize + tailSizes [])
        (List.replicate (u.number 0 32) part) := by
    rw [Part.tuple, Tree.headSizes_replicate]
    rfl
  have static (h : part.isDynamic = false) :
      tailSizes (Part.tuple strict (List.replicate (u.number 0 32) part) (u.drop 32)) = 0 := by
    have extents := extents_eq (Part.tuple strict (List.replicate (u.number 0 32) part) (u.drop 32))
    rw [anyDynamic_false] at extents
    · omega
    · rw [Part.tuple, Part.anyDynamic_walk fun p hp => List.eq_of_mem_replicate hp ▸ l.regular]
      simp [h]
  have shown := l.shows_rounds (u := u) address0 stride (u.number 0 32) [] (Tracer.start u cursors v).1
    (l.at_start hv short) (by simp) (by simp [headSizes])
  rw [List.nil_append, List.length_nil, ← whole, ← allRounds] at shown
  obtain ⟨last, acts⟩ := shown (fits.imp_left fun small => by
    rwa [Value.size, Tree.length_tuple_replicate] at small)
  exact ⟨Tree.length_tuple_replicate .., Tree.headSizes_tuple_replicate l.regular .., static, stride, last, acts⟩

namespace Looped
variable {lengths : String → Prop} {rounds : Values × List Event} {vs : List Value}

theorem size (h : Looped strict part lengths scope u address rounds vs) :
    (list vs).size = 32 + (32 * u.number 0 32 + bodySizes vs) := by
  rw [Value.size, h.length]

theorem extent (h : Looped strict part lengths scope u address rounds vs) :
    (list vs).extent = 32 + (u.number 0 32 * part.headSize + tailSizes vs) := by
  rw [Value.extent, extents_eq, h.heads]

theorem aligned_iff (h : Looped strict part lengths scope u address rounds vs) :
    Aligned (u.drop 32) (headSizes []) (u.number 0 32 * part.headSize + tailSizes []) vs ↔
      u.Matches (list vs).cells := by
  rw [cells, Wire.matches_append, length_ofWord, matches_frame, h.length, h.heads]
  exact (and_iff_right Wire.matches_ofWord_number).symm

theorem covers (h : Looped strict part lengths scope u address rounds vs) {i : Nat} (low : 32 ≤ i)
    (high : i < (list vs).size) : ∃ a ∈ rounds.2.flatMap Event.acts, a.Touches u i := by
  have length := h.length
  rw [h.size] at high
  by_cases slot : i < 32 + 32 * u.number 0 32
  · obtain ⟨a, ha, touches⟩ := h.shown.slots (i - 32) (by omega)
    rw [List.length_nil, show (32 + 32 * ((0 : Nat) : Int) + (i - 32 : Nat)) = i by omega] at touches
    exact ⟨a, ha, touches⟩
  · obtain ⟨a, ha, touches⟩ := h.shown.bodies (i - (32 + 32 * u.number 0 32)) (by omega)
    rw [List.nil_append, List.append_nil, length, bodySizes, show (32 + 32 * (u.number 0 32 : Int) +
      ((0 : Nat) : Int) + (i - (32 + 32 * u.number 0 32) : Nat)) = i by omega] at touches
    exact ⟨a, ha, touches⟩

theorem read_calldataSize (h : Looped strict part lengths scope u address rounds vs)
    (l : ElementLoop strict part element scope start checks cursors) {body : Plan} {t : Term}
    (ht : (overElements strict part.isDynamic part.headSize scope cursors body).calldataSize = some t) :
    t.read rounds.1 u = (list vs).extent := by
  rw [h.extent]
  rcases calldataSize_overElements ht with ⟨static, e⟩ | ⟨isDynamic, hs, e⟩
  · rw [e, Term.read_add, Term.read_mul, read_elementCount, Term.read_stride h.stride (Nat.le_refl _),
      Term.read_word, h.static static]
    push_cast
    omega
  · rw [e, Term.read_add, Term.read_var, h.last.offset isDynamic hs, Term.read_word, Option.getD_some,
      l.head_of_dynamic isDynamic]
    push_cast
    omega

theorem ready_count (h : Looped strict part lengths scope u address rounds vs)
    (small : (list vs).size < 2 ^ 63) (w : Values) : elementCount.Ready w u (list vs).extent := by
  have size := h.size
  have extent := h.extent
  exact ready_elementCount (by omega) (by omega)

theorem ready_calldataSize (h : Looped strict part lengths scope u address rounds vs) {body : Plan}
    (small : (list vs).size < 2 ^ 63) {t : Term}
    (ht : (overElements strict part.isDynamic part.headSize scope cursors body).calldataSize = some t) :
    t.Ready rounds.1 u (list vs).extent := by
  rcases calldataSize_overElements ht with ⟨_, e⟩ | ⟨isDynamic, hs, e⟩
  · rw [e]
    exact (h.ready_count small _).scale.add (.ofNat _)
  · rw [e]
    exact Term.Ready.add (.var (h.last.offset isDynamic hs) (by omega)) (.ofNat _)

theorem ready (h : Looped strict part lengths scope u address rounds vs)
    (found : strict = true ∨ u.Matches (list vs).cells) (small : (list vs).size < 2 ^ 63) :
    ∀ a ∈ rounds.2.flatMap Event.acts, a.Ready u (list vs).extent (list vs).size := by
  have size := h.size
  have extent := h.extent
  have ready := h.shown.ready (found.imp_right h.aligned_iff.2)
  rw [List.nil_append, List.append_nil, h.length, List.nil_append] at ready
  exact ready (by omega) _ _ (by omega) (by omega)

end Looped

theorem decodes_overElements (l : ElementLoop strict part element scope start checks cursors) {v : Values}
    {vs : List Value} (h : Looped strict part element.lengths scope u address
      (allRounds u scope cursors (elementBody scope start checks element) v) vs) :
    (overElements strict part.isDynamic part.headSize scope cursors
      (elementBody scope start checks element)).Decodes strict v u address (list vs) where
  size := by
    show (Term.var (scope ++ ".cursor")).read _ u = _
    rw [last_overElements, Term.read_var, h.last.cursor, h.size, Option.getD_some]
    omega
  extent t ht := by
    rw [last_overElements]
    exact h.read_calldataSize l ht
  good := by
    have good := h.shown.good
    rw [List.nil_append, List.append_nil, h.length] at good
    rw [image_list, h.length]
    exact forall_acts_overElements trivial (forall_acts_start (fun _ _ => trivial) v) good
      fun _ => good_lengthCopy scope address vs
  covers i hi := by
    by_cases first : i < 32
    · refine ⟨_, acts_overElements .. ▸ List.mem_cons_of_mem _ (List.mem_append_right _
        (List.mem_append_right _ (List.mem_singleton.2 rfl))), ?_⟩
      simp only [Act.Touches, lengthCopy, Term.read_word, Term.read_literal, Int64.toInt_zero]
      omega
    · obtain ⟨a, ha, touches⟩ := h.covers (by omega) hi
      exact ⟨a, mem_acts_overElements ha, touches⟩
  spares := by
    refine forall_acts_overElements trivial (forall_acts_start (fun _ _ => trivial) v) (fun a ha => ?_)
      fun w => spares_lengthCopy lengths_overElements w u _
    have spares := h.shown.spares a ha
    rw [List.nil_append, List.append_nil] at spares
    refine spares.mono (lengths_of_bound fun n hn => ?_)
    rw [bound_overElements]
    exact List.mem_cons_of_mem _ (List.mem_append_right _ hn)
  agrees := by
    rw [← h.aligned_iff, ← h.shown.agrees]
    exact ⟨fun agrees a ha => agrees a (mem_acts_overElements ha), fun rounds =>
      forall_acts_overElements trivial (forall_acts_start (fun _ _ => trivial) v) rounds fun _ => trivial⟩
  ready found small := by
    have size := h.size
    have extent := h.extent
    rw [last_overElements]
    refine ⟨forall_acts_overElements ⟨plain_elementCount, h.ready_count small v, ?_⟩
      (l.ready_started (by omega) (by omega) (by omega)) (h.ready found small) fun w => ?_,
      .var h.last.cursor (by omega), fun t ht => h.ready_calldataSize small ht⟩
    · rw [read_elementCount]
      omega
    · refine ⟨⟨.literal (by simp), .literal (by simp), .ofNat _⟩, .literal _, .literal _, .ofNat _, ?_⟩
      rw [lengthCopy, Term.read_literal]
      exact Int.natCast_nonneg _

theorem closed_overElements (l : ElementLoop strict part element scope start checks cursors) :
    ∀ n ∈ (overElements strict part.isDynamic part.headSize scope cursors
        (elementBody scope start checks element)).names,
      n ∈ cursorNames (overElements strict part.isDynamic part.headSize scope cursors
        (elementBody scope start checks element)).loops := by
  intro n hn
  rcases names_overElements hn with rfl | ⟨⟨isDynamic, hs⟩, rfl⟩
  · refine mem_cursorNames_of_cursor (c := ⟨scope ++ ".cursor", elementsEnd,
      (element.rebased start (.var (scope ++ ".cursor"))).memorySize⟩) ?_
    cases l.cursors <;> exact List.mem_cons_self
  · cases l.cursors with
    | memory none => simp [isDynamic, hs] at none
    | @both _ size _ =>
      exact mem_cursorNames_of_cursor (c := ⟨scope ++ ".offset", elementCount * .literal 32, size⟩)
        (List.mem_cons_of_mem _ List.mem_cons_self)

theorem sound_overElements (l : ElementLoop strict part element scope start checks cursors) {list : Part}
    (dynamic : list.isDynamic = true) (value : ∀ u, list.decode u =
      .list (Part.tuple strict (List.replicate (u.number 0 32) part) (u.drop 32))) :
    (overElements strict part.isDynamic part.headSize scope cursors
      (elementBody scope start checks element)).Sound strict list where
  plain := plain_overElements l.starts l.cursors l.sound.plain
  closed := l.closed_overElements
  measured hs := by cases h : part.isDynamic <;> simp [overElements, hs]
  written _ bound0 _ _ := bound0
  floor := by simp [dynamic]
  decodes v u address hv address0 fits := by
    rw [value] at fits ⊢
    rw [Fits, acts_overElements] at fits
    refine l.decodes_overElements (l.looped hv address0 (Act.fits_of_fits _ fits fun _ within => ?_))
    exact (List.forall_mem_append.1 (List.forall_mem_append.1 (List.forall_mem_cons.1 within).2).2).1

end ElementLoop

end Plan
end Calldata

import Calldata.Proofs.AtomText
import Calldata.Proofs.Elements

/-!
The plan of a type tree, and that it decodes the tree. Loops bind names beneath the scope they are
made for, so two members of a tuple never bind the same name.
-/
namespace Calldata

/-- What may follow a scope: a mark first, and no blanks, stars and parentheses. -/
def Continues (w : List Char) : Prop :=
  (∃ mark rest, w = mark :: rest ∧ (mark = '.' ∨ mark = '[')) ∧ ∀ c ∈ w, c ∉ [' ', '*', '(', ')']

def Beneath (scope n : String) : Prop := ∃ w, n.toList = scope.toList ++ w ∧ Continues w

/-- The names that continue a scope after a mark, in any way. -/
def Inside (scope n : String) : Prop :=
  ∃ mark rest, n.toList = scope.toList ++ mark :: rest ∧ (mark = '.' ∨ mark = '[')

theorem Continues.append {w w' : List Char} (h : Continues w) (h' : Continues w') : Continues (w ++ w') := by
  obtain ⟨⟨mark, rest, rfl, hm⟩, clean⟩ := h
  exact ⟨⟨mark, rest ++ w', rfl, hm⟩,
    fun c hc => (List.mem_append.1 hc).elim (clean c) (h'.2 c)⟩

namespace Beneath
variable {scope n step : String}

theorem of_append (h : Continues step.toList) : Beneath scope (scope ++ step) := ⟨_, by simp, h⟩

theorem extend (h : Beneath (scope ++ step) n) (hs : Continues step.toList) : Beneath scope n := by
  obtain ⟨w, eq, hw⟩ := h
  exact ⟨step.toList ++ w, by simp [eq], hs.append hw⟩

theorem inside (h : Beneath scope n) : Inside scope n := by
  obtain ⟨w, eq, ⟨mark, rest, rfl, hm⟩, _⟩ := h
  exact ⟨mark, rest, eq, hm⟩

end Beneath

namespace Inside
variable {scope n step step' : String} {mark mark' : Char} {inner inner' : List Char}

theorem of_append (eq : step.toList = mark :: inner) (hm : mark = '.' ∨ mark = '[') :
    Inside scope (scope ++ step) := ⟨mark, inner, by simp [eq], hm⟩

theorem extend (h : Inside (scope ++ step) n) (eq : step.toList = mark :: inner)
    (hm : mark = '.' ∨ mark = '[') : Inside scope n := by
  obtain ⟨m, rest, hn, _⟩ := h
  exact ⟨mark, inner ++ m :: rest, by simp [hn, eq], hm⟩

/-- Where one name continues two steps from a scope, the steps begin with the same mark and, when
they hold no other, are the same. -/
theorem same_step (h : Inside (scope ++ step) n) (h' : Inside (scope ++ step') n)
    (eq : step.toList = mark :: inner) (eq' : step'.toList = mark' :: inner')
    (plain : '.' ∉ inner ∧ '[' ∉ inner) (plain' : '.' ∉ inner' ∧ '[' ∉ inner') : step = step' := by
  obtain ⟨m, rest, hn, hm⟩ := h
  obtain ⟨m', rest', hn', hm'⟩ := h'
  have both : inner ++ m :: rest = inner' ++ m' :: rest' ∧ mark = mark' := by
    rw [hn] at hn'
    simp only [String.toList_append, eq, eq', List.append_assoc, List.append_cancel_left_eq,
      List.cons_append, List.cons.injEq] at hn'
    exact ⟨hn'.2, hn'.1⟩
  have same : inner = inner' := by
    have stops {a b : List Char} {x y : Char} {r s : List Char} (hx : x = '.' ∨ x = '[')
        (hb : '.' ∉ b ∧ '[' ∉ b) (eq : a ++ x :: r = b ++ y :: s) : b.length ≤ a.length := by
      by_contra longer
      have there : b[a.length]? = some x := by
        have := congrArg (fun l : List Char => l[a.length]?) eq
        simpa [List.getElem?_append_left (Nat.lt_of_not_le longer)] using this.symm
      have := List.mem_of_getElem? there
      rcases hx with rfl | rfl
      · exact hb.1 this
      · exact hb.2 this
    exact (List.append_inj both.1 (Nat.le_antisymm (stops hm' plain both.1.symm)
      (stops hm plain' both.1))).1
  rw [← String.toList_inj, eq, eq', same, both.2]

end Inside

theorem Part.headSizes_append (ps qs : List Part) :
    headSizes (ps ++ qs) = headSizes ps + headSizes qs := by
  induction ps with
  | nil => simp [headSizes]
  | cons p ps ih => simp [headSizes, ih, Nat.add_assoc]

namespace Plan

/-- The members of a tuple, their words and their heads side by side: the name of each, what it is
and how its body is decoded. -/
def seats (slot head : Nat) : List (String × Part × Plan) → List Member
  | [] => []
  | (name, part, plan) :: rest =>
    ⟨name, .ofNat slot, .ofNat head, if part.isWord then none else some (part.isDynamic, plan)⟩ ::
      seats (slot + 32) (head + part.headSize) rest

theorem bound_of_no_loops {p : Plan} (h : p.loops = []) : p.bound = [] := by
  obtain ⟨_, _, _, _, _, _⟩ := p
  cases h
  rfl

variable {strict : Bool} {part : Part} {ms : List (String × Part × Plan)}

/-- The plans of the members of a tuple decode them, and bind names of their own. -/
structure Seated (strict : Bool) (ms : List (String × Part × Plan)) : Prop where
  sound : ∀ m ∈ ms, m.2.2.Sound strict m.2.1
  regular : ∀ m ∈ ms, m.2.1.Regular
  words : ∀ m ∈ ms, m.2.1.isWord = true → m.2.1 = Tree.word.part strict
  apart : ms.Pairwise fun a b => ∀ n ∈ b.2.2.bound, n ∉ a.2.2.bound

theorem Draft.After.seats {memoryHead calldataHead : Nat} {d : Draft} {done : List Part}
    (after : After strict memoryHead calldataHead d done) (seated : Seated strict ms)
    (fresh : ∀ m ∈ ms, ∀ n ∈ m.2.2.bound, n ∉ d.plan.bound) :
    After strict memoryHead calldataHead
      ((Plan.seats (32 * done.length) (Part.headSizes done) ms).foldl (Draft.add strict) d)
      (done ++ ms.map (·.2.1)) := by
  induction ms generalizing d done with
  | nil => simpa [Plan.seats] using after
  | cons m ms ih =>
    obtain ⟨name, part, plan⟩ := m
    obtain ⟨sound, regular, words, apart⟩ := seated
    simp only [List.mem_cons, forall_eq_or_imp, List.pairwise_cons] at sound regular words apart fresh
    have rest : Seated strict ms := ⟨sound.2, regular.2, words.2, apart.2⟩
    have slot : 32 * done.length + 32 = 32 * (done ++ [part]).length := by simp [Nat.mul_add]
    have head : Part.headSizes done + part.headSize = Part.headSizes (done ++ [part]) := by
      rw [Part.headSizes_append]
      rfl
    have parts : done ++ ((name, part, plan) :: ms).map (·.2.1) = (done ++ [part]) ++ ms.map (·.2.1) := by
      simp
    rw [Plan.seats, List.foldl_cons, slot, head, parts]
    cases isWord : part.isWord with
    | true =>
      have step := after.word name
      rw [← words.1 isWord] at step
      rw [if_pos rfl]
      refine ih step rest fun m hm n hn => ?_
      rw [bound_add_word]
      exact fresh.2 m hm n hn
    | false =>
      rw [if_neg Bool.false_ne_true]
      refine ih (after.body name sound.1 regular.1 isWord fresh.1) rest fun m hm n hn => ?_
      rw [bound_add_body, List.mem_append, not_or]
      exact ⟨fresh.2 m hm n hn, apart.1 m hm n hn⟩

theorem sound_ofMembers (seated : Seated strict ms)
    (dynamic : part.isDynamic = (ms.map (·.2.1)).any Part.isDynamic)
    (head : part.isDynamic = false → part.headSize = Part.headSizes (ms.map (·.2.1)))
    (value : ∀ u, part.decode u = .tuple (Part.tuple strict (ms.map (·.2.1)) u)) :
    (ofMembers strict part.isDynamic (.ofNat (32 * ms.length))
      (.ofNat (Part.headSizes (ms.map (·.2.1)))) (seats 0 0 ms)).Sound strict part := by
  have after := @Draft.After.seats strict ms (32 * ms.length) (Part.headSizes (ms.map (·.2.1))) _ _
    .start seated fun m _ n _ => by simp [empty, bound, boundOf]
  have length : ms.length = (ms.map (·.2.1)).length := by simp
  rw [List.nil_append] at after
  nth_rewrite 1 [length] at after
  exact after.sound dynamic head value

def Member.bound (m : Member) : List String := (m.body.map (·.2.bound)).getD []

theorem Draft.bound_foldl (d : Draft) (members : List Member) :
    (members.foldl (Draft.add strict) d).plan.bound = d.plan.bound ++ members.flatMap Member.bound := by
  induction members generalizing d with
  | nil => simp
  | cons m rest ih =>
    obtain ⟨name, slot, head, body⟩ := m
    rw [List.foldl_cons, ih, List.flatMap_cons, ← List.append_assoc]
    congr 1
    cases body with
    | none => rw [bound_add_word, Member.bound, Option.map_none, Option.getD_none, List.append_nil]
    | some body => exact bound_add_body strict d name slot head body.1 body.2

theorem bound_ofMembers (dynamic : Bool) (memoryHead calldataHead : Term) (members : List Member) :
    (ofMembers strict dynamic memoryHead calldataHead members).bound = members.flatMap Member.bound := by
  have drafted := @Draft.bound_foldl strict ⟨empty, memoryHead, some calldataHead⟩ members
  rw [ofMembers]
  cases hp : (members.foldl (Draft.add strict) ⟨empty, memoryHead, some calldataHead⟩).plan with
  | mk => rwa [hp] at drafted

theorem mem_bound_seats {slot head : Nat} {n : String}
    (h : n ∈ (seats slot head ms).flatMap Member.bound) : ∃ m ∈ ms, n ∈ m.2.2.bound := by
  induction ms generalizing slot head with
  | nil => cases h
  | cons m ms ih =>
    obtain ⟨name, part, plan⟩ := m
    rw [seats, List.flatMap_cons, List.mem_append] at h
    rcases h with here | later
    · refine ⟨_, List.mem_cons_self, ?_⟩
      cases isWord : part.isWord <;> simp_all [Member.bound]
    · obtain ⟨m, hm, there⟩ := ih later
      exact ⟨m, List.mem_cons_of_mem _ hm, there⟩

theorem mem_bound_ofMembers {dynamic : Bool} {memoryHead calldataHead : Term} {n : String}
    (h : n ∈ (ofMembers strict dynamic memoryHead calldataHead (seats 0 0 ms)).bound) :
    ∃ m ∈ ms, n ∈ m.2.2.bound := by
  rw [bound_ofMembers] at h
  exact mem_bound_seats h

end Plan

namespace Tree

/-- Tuples of words: the same in calldata and in memory. -/
def isFlat : Tree → Bool
  | .fixed _ _ t => t.isWord
  | .record fields => fields.all (·.2.isWord)
  | _ => false

mutual

/-- The plan of a tree, relative to the start of its calldata and of its body in memory. -/
def plan (strict : Bool) : Tree → String → Plan
  | .word, scope => .ofValue scope
  | .bytes, scope => .ofByteString scope
  | .fixed n _ t, scope =>
    if t.isWord then .single scope (.words n) (.words n)
    else if t.isFlat then .ofFlatElements scope n t.headSize
    else .ofMembers strict t.isDynamic (.ofNat (32 * n)) (.ofNat (n * t.headSize))
      (Plan.seats 0 0 ((List.range n).map fun i =>
        (s!"{scope}[{i}]", t.part strict, plan strict t s!"{scope}[{i}]")))
  | .dynamic t, scope =>
    if t.isWord then .single scope Plan.elementsEnd Plan.elementsEnd
    else if t.isFlat then .ofFlatDynamicArray scope t.headSize
    else (Plan.ofDynamicArray strict t.isDynamic t.headSize scope
      (plan strict t (scope ++ "[]"))).getD .empty
  | .record fields, scope =>
    if fields.all (·.2.isWord) then
      .single scope (.ofNat (32 * fields.length)) (.ofNat (headSizes fields))
    else .ofMembers strict (anyDynamic fields) (.ofNat (32 * fields.length))
      (.ofNat (headSizes fields)) (Plan.seats 0 0 (fieldPlans strict scope fields))

def fieldPlans (strict : Bool) (scope : String) : List (String × Tree) → List (String × Part × Plan)
  | [] => []
  | (field, t) :: rest =>
    (scope ++ "." ++ field, t.part strict, plan strict t (scope ++ "." ++ field)) ::
      fieldPlans strict scope rest

end

theorem fieldPlans_eq (strict : Bool) (scope : String) (fields : List (String × Tree)) :
    fieldPlans strict scope fields = fields.map fun f =>
      (scope ++ "." ++ f.1, f.2.part strict, f.2.plan strict (scope ++ "." ++ f.1)) := by
  induction fields with
  | nil => rfl
  | cons f rest ih => simp [fieldPlans, ih]

theorem fieldPlans_parts (strict : Bool) (scope : String) (fields : List (String × Tree)) :
    (fieldPlans strict scope fields).map (·.2.1) = parts strict fields := by
  rw [fieldPlans_eq, parts_eq]
  simp

mutual

def fieldNames : Tree → List String
  | .word | .bytes => []
  | .fixed _ _ t | .dynamic t => t.fieldNames
  | .record fields => namesOf fields

def namesOf : List (String × Tree) → List String
  | [] => []
  | (field, t) :: rest => field :: (t.fieldNames ++ namesOf rest)

end

mutual

def Distinct : Tree → Prop
  | .word | .bytes => True
  | .fixed _ _ t | .dynamic t => t.Distinct
  | .record fields => (fields.map Prod.fst).Nodup ∧ DistinctEach fields

def DistinctEach : List (String × Tree) → Prop
  | [] => True
  | (_, t) :: rest => t.Distinct ∧ DistinctEach rest

end

/-- Names of fields that hold none of the marks which plans put around them. -/
def PlainField (name : String) : Prop :=
  ∀ c ∈ name.toList, c ∉ ['.', '[', ']', '(', ')', '*', ' ']

/-- Names of fields without the marks that separate a scope from what continues it. -/
def Unmarked (name : String) : Prop := '.' ∉ name.toList ∧ '[' ∉ name.toList

instance (name : String) : Decidable (Unmarked name) := inferInstanceAs (Decidable (_ ∧ _))

theorem PlainField.unmarked {name : String} (h : PlainField name) : Unmarked name :=
  ⟨fun hc => h _ hc (by decide), fun hc => h _ hc (by decide)⟩

theorem mem_namesOf {fields : List (String × Tree)} {n : String} :
    n ∈ namesOf fields ↔ ∃ f ∈ fields, n = f.1 ∨ n ∈ f.2.fieldNames := by
  induction fields with
  | nil => simp [namesOf]
  | cons f rest ih => simp [namesOf, ih, or_assoc]

theorem distinctEach_iff {fields : List (String × Tree)} :
    DistinctEach fields ↔ ∀ f ∈ fields, f.2.Distinct := by
  induction fields with
  | nil => simp [DistinctEach]
  | cons f rest ih => simp [DistinctEach, ih]

theorem isDigit_of_index {i : Nat} {c : Char} (h : c ∈ (toString i).toList) : c.isDigit = true := by
  have h : c ∈ i.repr.toList := h
  rw [Nat.toList_repr] at h
  exact Nat.isDigit_of_mem_toDigits (by decide) (by decide) h

theorem elementName_eq (scope : String) (i : Nat) :
    s!"{scope}[{i}]" = scope ++ ("[" ++ (toString i ++ "]")) := by
  rw [← String.append_assoc, ← String.append_assoc]
  rfl

theorem continues_element (i : Nat) : Continues ("[" ++ (toString i ++ "]")).toList := by
  refine ⟨⟨'[', (toString i).toList ++ [']'], by simp, .inr rfl⟩, fun c hc => ?_⟩
  simp only [String.toList_append, List.mem_append] at hc
  rcases hc with hc | hc | hc
  · simp only [String.reduceToList, List.mem_singleton] at hc
    subst hc
    decide
  · intro listed
    have digit := isDigit_of_index hc
    simp only [List.mem_cons, List.not_mem_nil, or_false] at listed
    rcases listed with rfl | rfl | rfl | rfl <;> exact absurd digit (by decide)
  · simp only [String.reduceToList, List.mem_singleton] at hc
    subst hc
    decide

theorem continues_field {field : String} (plain : PlainField field) :
    Continues ("." ++ field).toList := by
  refine ⟨⟨'.', field.toList, by simp, .inl rfl⟩, fun c hc => ?_⟩
  simp only [String.toList_append, List.mem_append] at hc
  rcases hc with hc | hc
  · simp only [String.reduceToList, List.mem_singleton] at hc
    subst hc
    decide
  · have := plain c hc
    simp only [List.mem_cons, List.not_mem_nil, or_false, not_or] at this ⊢
    tauto

theorem index_of_inside {scope n : String} {i j : Nat} (hi : Inside s!"{scope}[{i}]" n)
    (hj : Inside s!"{scope}[{j}]" n) : i = j := by
  have plain (k : Nat) : '.' ∉ (toString k).toList ++ [']'] ∧ '[' ∉ (toString k).toList ++ [']'] := by
    simp only [List.mem_append, List.mem_singleton, not_or]
    refine ⟨⟨fun h => ?_, by decide⟩, ⟨fun h => ?_, by decide⟩⟩ <;>
      exact absurd (isDigit_of_index h) (by decide)
  have text (k : Nat) : ("[" ++ (toString k ++ "]")).toList = '[' :: ((toString k).toList ++ [']']) := by
    simp
  rw [elementName_eq] at hi hj
  have same := congrArg String.toList (hi.same_step hj (text i) (text j) (plain i) (plain j))
  simp only [String.toList_append, List.append_cancel_left_eq, List.append_cancel_right_eq,
    String.toList_inj] at same
  exact AtomText.natural_inj same

theorem field_of_inside {scope n field field' : String} (plain : Unmarked field) (plain' : Unmarked field')
    (h : Inside (scope ++ "." ++ field) n) (h' : Inside (scope ++ "." ++ field') n) : field = field' := by
  have text (f : String) : ("." ++ f).toList = '.' :: f.toList := by simp
  rw [String.append_assoc] at h h'
  have same := congrArg String.toList (h.same_step h' (text field) (text field') plain plain')
  exact String.toList_inj.1 (by simpa using same)

section Sound
open Plan
variable {strict : Bool} {t : Tree} {scope : String}

theorem eq_word (h : t.isWord = true) : t = .word := by cases t <;> simp_all [isWord]

theorem flat_part (h : t.isFlat = true) : (t.part strict).Flat := by
  have words {parts : List Part} (each : ∀ p ∈ parts, p = word.part strict) (u : Wire) :
      (Value.tuple (Part.tuple strict parts u)).Flat := by
    refine ⟨_, rfl, fun w hw => ?_⟩
    obtain ⟨p, hp, u', rfl⟩ := Part.mem_walk hw
    rw [each p hp]
    rfl
  have static : t.isDynamic = false := by
    cases t with
    | word | bytes | dynamic => cases h
    | fixed n positive t =>
      rw [eq_word h]
      rfl
    | record fields =>
      have all := List.all_eq_true.1 h
      rw [isDynamic, ← @any_isDynamic_parts strict, List.any_eq_false, parts_eq]
      simp only [List.mem_map, forall_exists_index, and_imp, forall_apply_eq_imp_iff₂]
      intro f hf
      rw [eq_word (all f hf)]
      simp [part, isDynamic]
  refine ⟨regular_part strict t, static, fun u => ?_, matches_of_static strict static⟩
  cases t with
  | word | bytes | dynamic => cases h
  | fixed n positive t =>
    change ((fixed n positive t).decode strict u).Flat
    rw [decode_fixed, eq_word h]
    exact words (fun p hp => List.eq_of_mem_replicate hp) u
  | record fields =>
    change ((record fields).decode strict u).Flat
    rw [decode_record, parts_eq]
    refine words (fun p hp => ?_) u
    obtain ⟨f, hf, rfl⟩ := List.mem_map.1 hp
    rw [eq_word (List.all_eq_true.1 h f hf)]

theorem beneath_own {n : String} (h : n ∈ own scope) : Beneath scope n := by
  simp only [own, List.mem_cons, List.not_mem_nil, or_false] at h
  rcases h with rfl | rfl | rfl <;>
    exact .of_append ⟨⟨'.', _, by simp; rfl, .inl rfl⟩, by simp⟩

theorem not_inside_own {n : String} (h : n ∈ own scope) : ¬ Inside (scope ++ "[]") n := by
  rintro ⟨mark, rest, eq, _⟩
  simp only [own, List.mem_cons, List.not_mem_nil, or_false] at h
  rcases h with rfl | rfl | rfl <;> simp at eq

def elementPlans (strict : Bool) (t : Tree) (scope : String) (n : Nat) : List (String × Part × Plan) :=
  (List.range n).map fun i => (s!"{scope}[{i}]", t.part strict, t.plan strict s!"{scope}[{i}]")

theorem elementPlans_parts (n : Nat) :
    (elementPlans strict t scope n).map (·.2.1) = List.replicate n (t.part strict) := by
  simp [elementPlans, Function.comp_def]

theorem seated_elements (n : Nat) (isBody : t.isWord ≠ true)
    (each : ∀ scope, (t.plan strict scope).Sound strict (t.part strict) ∧
      ∀ n ∈ (t.plan strict scope).bound, Beneath scope n) : Seated strict (elementPlans strict t scope n) := by
  unfold elementPlans
  constructor
  · simp only [List.mem_map, forall_exists_index, and_imp, forall_apply_eq_imp_iff₂]
    exact fun i _ => (each _).1
  · simp only [List.mem_map, forall_exists_index, and_imp, forall_apply_eq_imp_iff₂]
    exact fun i _ => regular_part strict t
  · simp only [List.mem_map, forall_exists_index, and_imp, forall_apply_eq_imp_iff₂]
    exact fun i _ h => absurd h isBody
  · rw [List.pairwise_map]
    refine List.pairwise_lt_range.imp fun {i j} less m hj hi => ?_
    have := index_of_inside ((each _).2 m hi).inside ((each _).2 m hj).inside
    omega

theorem sound_fixed {n : Nat} {positive : 0 < n}
    (ih : ∀ scope, (t.plan strict scope).Sound strict (t.part strict) ∧
      ∀ n ∈ (t.plan strict scope).bound, Beneath scope n) :
    ((fixed n positive t).plan strict scope).Sound strict ((fixed n positive t).part strict) ∧
      ∀ m ∈ ((fixed n positive t).plan strict scope).bound, Beneath scope m := by
  have value (u : Wire) : ((fixed n positive t).part strict).decode u =
      .tuple (Part.tuple strict (List.replicate n (t.part strict)) u) := decode_fixed strict n positive t u
  have static (h : t.isDynamic = false) : ((fixed n positive t).part strict).headSize = n * t.headSize := by
    change (fixed n positive t).headSize = _
    rw [headSize, h, if_neg Bool.false_ne_true]
  rw [plan]
  split
  · next isWord =>
    have words := eq_word isWord
    subst words
    have size : Term.words n = .ofNat (32 * (List.replicate n (word.part strict)).length) := by
      rw [Term.words_eq, List.length_replicate, Nat.mul_comm]
    refine ⟨sound_words ?_ value (fun p hp => List.eq_of_mem_replicate hp) size size, ?_⟩
    · rw [static rfl, List.length_replicate, headSize, Nat.mul_comm]
    · rw [bound_of_no_loops rfl]
      simp
  · split
    · next flat =>
      have flat := @flat_part strict t flat
      refine ⟨Plan.sound_flatElements (p := t.part strict) scope n flat ?_ value, ?_⟩
      · exact static flat.static
      · rw [bound_of_no_loops rfl]
        simp
    · next isWord _ =>
      have parts := @elementPlans_parts strict t scope n
      have length : (elementPlans strict t scope n).length = n := by simp [elementPlans]
      refine ⟨?_, fun m hm => ?_⟩
      · have sound := @sound_ofMembers strict ((fixed n positive t).part strict) _
          (@seated_elements strict t scope n isWord ih)
          (by rw [parts, any_replicate positive]; rfl)
          (by rw [parts, headSizes_replicate]; exact static) (by rw [parts]; exact value)
        rw [parts, length, headSizes_replicate] at sound
        exact sound
      · obtain ⟨member, hmember, there⟩ := mem_bound_ofMembers hm
        obtain ⟨i, _, rfl⟩ := List.mem_map.1 hmember
        have beneath := (ih _).2 m there
        rw [elementName_eq] at beneath
        exact beneath.extend (continues_element i)

theorem sound_dynamic
    (ih : ∀ scope, (t.plan strict scope).Sound strict (t.part strict) ∧
      ∀ n ∈ (t.plan strict scope).bound, Beneath scope n) :
    ((dynamic t).plan strict scope).Sound strict ((dynamic t).part strict) ∧
      ∀ n ∈ ((dynamic t).plan strict scope).bound, Beneath scope n := by
  have value (u : Wire) : ((dynamic t).part strict).decode u = .list (Part.tuple strict
      (List.replicate (u.number 0 32) (t.part strict)) (u.drop 32)) := decode_dynamic strict t u
  rw [plan]
  split
  · next isWord =>
    rw [eq_word isWord, bound_of_no_loops rfl]
    exact ⟨sound_wordList scope, by simp⟩
  · split
    · next flat =>
      refine ⟨Plan.sound_flatList (p := t.part strict) scope (flat_part flat) rfl value, fun n hn => ?_⟩
      have own : n = scope ++ ".index" := by
        simpa [ofFlatDynamicArray, bound, boundOf, Plan.empty] using hn
      exact beneath_own (by simp [own, Plan.own])
    · next isWord _ =>
      obtain ⟨sound, beneath⟩ := ih (scope ++ "[]")
      obtain ⟨start, checks, cursors, starts, steps, eq⟩ :=
        @ofDynamicArray_eq strict t.isDynamic t.headSize scope _ sound.measured
      rw [eq, Option.getD_some]
      have loop : ElementLoop strict (t.part strict) (t.plan strict (scope ++ "[]")) scope start checks
          cursors := {
        starts, cursors := steps, sound, regular := regular_part strict t
        isBody := Bool.eq_false_iff.2 isWord
        apart := fun n hn there => not_inside_own hn (beneath n there).inside }
      refine ⟨loop.sound_overElements rfl value, fun n hn => ?_⟩
      have inside : n ∈ own scope ∨ n ∈ (t.plan strict (scope ++ "[]")).bound := by
        rw [bound_overElements] at hn
        rcases List.mem_cons.1 hn with rfl | hn
        · exact .inl (by simp [own])
        · refine (List.mem_append.1 hn).imp_left fun hn => ?_
          cases steps <;> simp [own] at hn ⊢ <;> tauto
      rcases inside with inside | inside
      · exact beneath_own inside
      · exact (beneath n inside).extend ⟨⟨'[', _, by simp; rfl, .inr rfl⟩, by simp⟩

theorem seated_fields {fields : List (String × Tree)} (plain : ∀ f ∈ fields, PlainField f.1)
    (distinct : (fields.map Prod.fst).Nodup)
    (each : ∀ f ∈ fields, ∀ scope, (f.2.plan strict scope).Sound strict (f.2.part strict) ∧
      ∀ n ∈ (f.2.plan strict scope).bound, Beneath scope n) : Seated strict (fieldPlans strict scope fields) := by
  rw [fieldPlans_eq]
  constructor
  · simp only [List.mem_map, forall_exists_index, and_imp, forall_apply_eq_imp_iff₂]
    exact fun f hf => (each f hf _).1
  · simp only [List.mem_map, forall_exists_index, and_imp, forall_apply_eq_imp_iff₂]
    exact fun f _ => regular_part strict f.2
  · simp only [List.mem_map, forall_exists_index, and_imp, forall_apply_eq_imp_iff₂]
    exact fun f _ isWord => by rw [eq_word isWord]
  · rw [List.pairwise_map]
    have distinct : fields.Pairwise fun f g => f.1 ≠ g.1 := List.pairwise_map.1 distinct
    refine distinct.imp_of_mem fun {f g} hf hg ne n hn hn' => ne ?_
    exact field_of_inside (plain f hf).unmarked (plain g hg).unmarked ((each f hf _).2 n hn').inside
      ((each g hg _).2 n hn).inside

theorem sound_record {fields : List (String × Tree)} (plain : ∀ f ∈ fields, PlainField f.1)
    (distinct : (fields.map Prod.fst).Nodup)
    (ih : ∀ f ∈ fields, ∀ scope, (f.2.plan strict scope).Sound strict (f.2.part strict) ∧
      ∀ n ∈ (f.2.plan strict scope).bound, Beneath scope n) :
    ((record fields).plan strict scope).Sound strict ((record fields).part strict) ∧
      ∀ n ∈ ((record fields).plan strict scope).bound, Beneath scope n := by
  have value (u : Wire) : ((record fields).part strict).decode u =
      .tuple (Part.tuple strict (parts strict fields) u) := decode_record strict fields u
  have static (h : anyDynamic fields = false) :
      ((record fields).part strict).headSize = headSizes fields := by
    change (record fields).headSize = _
    rw [headSize, h, if_neg Bool.false_ne_true]
  rw [plan]
  split
  · next all =>
    have words : ∀ p ∈ parts strict fields, p = word.part strict := by
      rw [parts_eq]
      simp only [List.mem_map, forall_exists_index, and_imp, forall_apply_eq_imp_iff₂]
      exact fun f hf => by rw [eq_word (List.all_eq_true.1 all f hf)]
    have length : (parts strict fields).length = fields.length := by simp [parts_eq]
    have sizes : headSizes fields = 32 * fields.length := by
      rw [← @headSizes_parts strict, List.eq_replicate_of_mem words, headSizes_replicate, length,
        Nat.mul_comm]
      rfl
    refine ⟨sound_words ?_ value words ?_ ?_, ?_⟩
    · rw [length, ← sizes]
      refine static ?_
      rw [← @any_isDynamic_parts strict, List.any_eq_false]
      exact fun p hp => by simp [words p hp, part, isDynamic]
    · rw [length]
    · rw [length, sizes]
    · rw [bound_of_no_loops rfl]
      simp
  · have parts_map := fieldPlans_parts strict scope fields
    have length : (fieldPlans strict scope fields).length = fields.length := by simp [fieldPlans_eq]
    have seated : Seated strict (fieldPlans strict scope fields) := seated_fields plain distinct ih
    refine ⟨?_, fun n hn => ?_⟩
    · have sound := @sound_ofMembers strict ((record fields).part strict) _ seated
        (by rw [parts_map, any_isDynamic_parts]; rfl)
        (by rw [parts_map, headSizes_parts]; exact static) (by rw [parts_map]; exact value)
      rw [parts_map, length, headSizes_parts] at sound
      exact sound
    · obtain ⟨member, hmember, there⟩ := mem_bound_ofMembers hn
      rw [fieldPlans_eq] at hmember
      obtain ⟨f, hf, rfl⟩ := List.mem_map.1 hmember
      have beneath := (ih f hf _).2 n there
      rw [String.append_assoc] at beneath
      exact beneath.extend (continues_field (plain f hf))

/-- The plan of a tree decodes it, and binds names beneath its scope. -/
theorem sound_plan (strict : Bool) (t : Tree) (plain : ∀ f ∈ t.fieldNames, PlainField f)
    (distinct : t.Distinct) (scope : String) :
    (t.plan strict scope).Sound strict (t.part strict) ∧
      ∀ n ∈ (t.plan strict scope).bound, Beneath scope n := by
  induction t using Tree.induction generalizing scope with
  | word => exact ⟨sound_word scope, by rw [plan, bound_of_no_loops rfl]; simp⟩
  | bytes => exact ⟨sound_bytes scope, by rw [plan, bound_of_no_loops rfl]; simp⟩
  | fixed n positive t ih => exact sound_fixed (ih plain distinct)
  | dynamic t ih => exact sound_dynamic (ih plain distinct)
  | record fields ih =>
    have each (f : String × Tree) (hf : f ∈ fields) : PlainField f.1 ∧ ∀ g ∈ f.2.fieldNames, PlainField g :=
      ⟨plain _ (mem_namesOf.2 ⟨f, hf, .inl rfl⟩), fun g hg => plain g (mem_namesOf.2 ⟨f, hf, .inr hg⟩)⟩
    exact sound_record (fun f hf => (each f hf).1) distinct.1
      fun f hf => ih f hf (each f hf).2 (distinctEach_iff.1 distinct.2 f hf)

end Sound
end Tree
end Calldata

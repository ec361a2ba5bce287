import Calldata.Interface.Basic
import Mathlib.Data.List.TakeWhile
import Mathlib.Data.Nat.Digits.Defs

/-!
The grammar of type strings. A parameter has a type exactly if its type string, without the white
space around it, is a base with suffixes, and for a tuple also every component has one. The reader of
numbers lets a plus sign pass in front of an array length and of the size of a byte string, so the
grammar comes in two forms, with such signs and without.
-/
namespace Calldata
namespace Interface

structure Digits (cs : List Char) (n : Nat) : Prop where
  nonempty : cs ≠ []
  digit : ∀ c ∈ cs, c.isDigit = true
  value : n = Nat.ofDigits 10 (cs.reverse.map fun c => c.toNat - '0'.toNat)

/-- Digits, or where signs are allowed digits after a plus sign. -/
inductive Numeral (signed : Bool) : List Char → Nat → Prop
  | digits {cs : List Char} {n : Nat} : Digits cs n → Numeral signed cs n
  | plus {cs : List Char} {n : Nat} : signed = true → Digits cs n → Numeral signed ('+' :: cs) n

def words : List (String × Ty) :=
  [("bool", .bool), ("address", .address), ("string", .string), ("bytes", .bytes), ("function", .function),
    ("uint", .uint 256), ("int", .int 256)]

def integers : List (String × ElementaryKind) := [("uint", .uint), ("int", .int)]

inductive Base (signed : Bool) : List Char → Ty → Prop
  | word {w : String} {ty : Ty} : (w, ty) ∈ words → Base signed w.toList ty
  | integer {w : String} {kind : ElementaryKind} {cs : List Char} {n : Nat} : (w, kind) ∈ integers →
      Digits cs n → n < 2 ^ 16 → Base signed (w.toList ++ cs) (.ofWidth kind (UInt16.ofNat n))
  | fixedBytes {cs : List Char} {n : Nat} : Numeral signed cs n → 8 * n < 2 ^ 16 →
      Base signed ("bytes".toList ++ cs) (.ofWidth .byte (UInt16.ofNat (8 * n)))

inductive Length (signed : Bool) : List Char → Option UInt64 → Prop
  | dynamic : Length signed [] none
  | fixed {cs : List Char} {n : Nat} : Numeral signed cs n → n < 2 ^ 64 → Length signed cs (some (UInt64.ofNat n))

/-- What suffixes make of a type: the leftmost one has it for its elements. -/
inductive Suffixed (signed : Bool) : Ty → List Char → Ty → Prop
  | done {ty : Ty} : Suffixed signed ty [] ty
  | next {ty whole : Ty} {inner rest : List Char} {length : Option UInt64} : Length signed inner length →
      Suffixed signed (.array ty length) rest whole →
      Suffixed signed ty ('[' :: (inner ++ ']' :: rest)) whole

mutual

/-- A parameter spells a type. -/
inductive Spelled (signed : Bool) : Param → Ty → Prop
  | elementary {name type : String} {components : List Param} {base rest : List Char} {body ty : Ty} :
      Text.trim type.toList = base ++ rest → Base signed base body → Suffixed signed body rest ty →
      Spelled signed ⟨name, type, components⟩ ty
  | tuple {name type : String} {components : List Param} {rest : List Char} {fields : List Field} {ty : Ty} :
      Text.trim type.toList = "tuple".toList ++ rest → Members signed 0 components fields →
      Suffixed signed (.record fields) rest ty → Spelled signed ⟨name, type, components⟩ ty

inductive Members (signed : Bool) : Nat → List Param → List Field → Prop
  | nil {position : Nat} : Members signed position [] []
  | cons {position : Nat} {name type : String} {components rest : List Param} {ty : Ty} {fields : List Field} :
      Spelled signed ⟨name, type, components⟩ ty → Members signed (position + 1) rest fields →
      Members signed position (⟨name, type, components⟩ :: rest) (⟨fieldName name position, ty⟩ :: fields)

end

section
variable {signed : Bool} {cs base rest : List Char} {n bound : Nat} {ty body : Ty}

theorem digitsValue_eq (cs : List Char) :
    Text.digitsValue cs = Nat.ofDigits 10 (cs.reverse.map fun c => c.toNat - '0'.toNat) := by
  rw [Text.digitsValue, Nat.ofDigits_eq_foldr, List.foldr_map, List.foldr_reverse]
  congr 1
  funext n c
  exact Nat.add_comm _ _

theorem digits?_eq_some_iff : Text.digits? bound cs = some n ↔ Digits cs n ∧ n < bound := by
  have tested : (!cs.isEmpty && cs.all Char.isDigit && decide (Text.digitsValue cs < bound)) = true ↔
      (cs ≠ [] ∧ ∀ c ∈ cs, c.isDigit = true) ∧ Text.digitsValue cs < bound := by simp
  rw [Text.digits?]
  constructor
  · intro h
    split at h
    · next passed =>
      cases h
      obtain ⟨⟨nonempty, digit⟩, small⟩ := tested.1 passed
      exact ⟨⟨nonempty, digit, digitsValue_eq cs⟩, small⟩
    · cases h
  · rintro ⟨⟨nonempty, digit, value⟩, small⟩
    rw [← digitsValue_eq] at value
    rw [value] at small ⊢
    rw [if_pos (tested.2 ⟨⟨nonempty, digit⟩, small⟩)]

theorem unsigned?_eq_some_iff : Text.unsigned? bound cs = some n ↔ Numeral true cs n ∧ n < bound := by
  unfold Text.unsigned?
  split
  · next rest =>
    rw [digits?_eq_some_iff]
    constructor
    · rintro ⟨digits, small⟩
      exact ⟨.plus rfl digits, small⟩
    · rintro ⟨numeral, small⟩
      cases numeral with
      | digits h => cases h.digit '+' List.mem_cons_self
      | plus _ h => exact ⟨h, small⟩
  · next plain =>
    rw [digits?_eq_some_iff]
    constructor
    · rintro ⟨digits, small⟩
      exact ⟨.digits digits, small⟩
    · rintro ⟨numeral, small⟩
      cases numeral with
      | digits h => exact ⟨h, small⟩
      | plus _ _ => exact absurd rfl (plain _)

theorem sized?_eq_some_iff {kind : ElementaryKind} :
    sized? kind cs = some ty ↔ (cs = [] ∧ ty = .ofWidth kind 256) ∨
      ∃ n, Digits cs n ∧ n < 2 ^ 16 ∧ ty = .ofWidth kind (UInt16.ofNat n) := by
  rw [sized?]
  by_cases empty : cs = []
  · subst empty
    simp only [List.isEmpty_nil, if_true, Option.some.injEq, true_and]
    constructor
    · rintro rfl
      exact .inl rfl
    · rintro (rfl | ⟨n, digits, _⟩)
      · rfl
      · exact absurd rfl digits.nonempty
  · rw [if_neg (by simpa using empty), Option.map_eq_some_iff]
    simp only [digits?_eq_some_iff, empty, false_and, false_or]
    constructor
    · rintro ⟨n, ⟨digits, small⟩, rfl⟩
      exact ⟨n, digits, small, rfl⟩
    · rintro ⟨n, digits, small, rfl⟩
      exact ⟨n, ⟨digits, small⟩, rfl⟩

theorem after?_eq_some_iff {word : List Char} : after? word cs = some rest ↔ cs = word ++ rest := by
  induction word generalizing cs with
  | nil => simp [after?]
  | cons w word ih =>
    cases cs with
    | nil => simp [after?]
    | cons c cs =>
      rw [after?]
      by_cases same : w = c
      · simp [same, ih]
      · simp [same, Ne.symm same]

theorem base?_word {w : String} (h : (w, ty) ∈ words) : base? w.toList = some ty := by
  simp only [words, List.mem_cons, Prod.mk.injEq, List.not_mem_nil, or_false] at h
  rcases h with ⟨rfl, rfl⟩ | ⟨rfl, rfl⟩ | ⟨rfl, rfl⟩ | ⟨rfl, rfl⟩ | ⟨rfl, rfl⟩ | ⟨rfl, rfl⟩ | ⟨rfl, rfl⟩ <;> rfl

theorem base?_integer {w : String} {kind : ElementaryKind} (h : (w, kind) ∈ integers) (cs : List Char) :
    base? (w.toList ++ cs) = sized? kind cs := by
  simp only [integers, List.mem_cons, Prod.mk.injEq, List.not_mem_nil, or_false] at h
  rcases h with ⟨rfl, rfl⟩ | ⟨rfl, rfl⟩ <;> simp [base?, after?]

theorem base?_bytes (nonempty : cs ≠ []) : base? ("bytes".toList ++ cs) =
    (Text.unsigned? UInt16.size cs).bind fun n => Ty.fixedBytes (UInt16.ofNat n) := by
  simp [base?, after?, nonempty]

theorem fixedBytes_eq_some_iff (small : n < 2 ^ 16) :
    Ty.fixedBytes (UInt16.ofNat n) = some ty ↔ 8 * n < 2 ^ 16 ∧ ty = .ofWidth .byte (UInt16.ofNat (8 * n)) := by
  have size : (UInt16.ofNat n).toNat = n := UInt16.toNat_ofNat_of_lt small
  have bits : UInt16.ofNat n * 8 = UInt16.ofNat (8 * n) := by
    rw [UInt16.ofNat_mul, UInt16.mul_comm]
    rfl
  rw [Ty.fixedBytes, size, bits, Nat.mul_comm n 8]
  by_cases room : 8 * n < UInt16.size
  · rw [if_pos room]
    simp only [Option.some.injEq, show 8 * n < 2 ^ 16 from room, true_and, eq_comm]
  · rw [if_neg room]
    simp only [reduceCtorEq, show ¬ 8 * n < 2 ^ 16 from room, false_and]

theorem Numeral.nonempty (h : Numeral signed cs n) : cs ≠ [] := by
  cases h with
  | digits h => exact h.nonempty
  | plus _ _ => exact List.cons_ne_nil _ _

theorem word_of_integer {w : String} {kind : ElementaryKind} (h : (w, kind) ∈ integers) :
    (w, Ty.ofWidth kind 256) ∈ words := by
  simp only [integers, List.mem_cons, Prod.mk.injEq, List.not_mem_nil, or_false] at h
  rcases h with ⟨rfl, rfl⟩ | ⟨rfl, rfl⟩ <;> simp [words, Ty.uint, Ty.int]

theorem base_of_sized? {w : String} {kind : ElementaryKind} (mem : (w, kind) ∈ integers)
    (h : sized? kind cs = some ty) : Base signed (w.toList ++ cs) ty := by
  rcases sized?_eq_some_iff.1 h with ⟨rfl, rfl⟩ | ⟨n, digits, small, rfl⟩
  · rw [List.append_nil]
    exact .word (word_of_integer mem)
  · exact .integer mem digits small

theorem base_of_base? (h : base? base = some ty) : Base true base ty := by
  cases uint : after? "uint".toList base with
  | some cs =>
    cases after?_eq_some_iff.1 uint
    have mem : ("uint", ElementaryKind.uint) ∈ integers := by simp [integers]
    rw [base?_integer mem] at h
    exact base_of_sized? mem h
  | none =>
    cases int : after? "int".toList base with
    | some cs =>
      cases after?_eq_some_iff.1 int
      have mem : ("int", ElementaryKind.int) ∈ integers := by simp [integers]
      rw [base?_integer mem] at h
      exact base_of_sized? mem h
    | none =>
      by_cases plain : ∃ w body, (w, body) ∈ words ∧ base = w.toList
      · obtain ⟨w, body, mem, rfl⟩ := plain
        rw [base?_word mem] at h
        cases h
        exact .word mem
      · have other (w : String) (body : Ty) (mem : (w, body) ∈ words) : base ≠ w.toList :=
          fun same => plain ⟨w, body, mem, same⟩
        rw [base?, if_neg (other "bool" .bool (by simp [words])), if_neg (other "address" .address (by simp [words])),
          if_neg (other "string" .string (by simp [words])), if_neg (other "bytes" .bytes (by simp [words])),
          if_neg (other "function" .function (by simp [words])), uint, int] at h
        cases bytes : after? "bytes".toList base with
        | none =>
          rw [bytes] at h
          cases h
        | some cs =>
          cases after?_eq_some_iff.1 bytes
          rw [bytes] at h
          obtain ⟨n, read, h⟩ := Option.bind_eq_some_iff.1 h
          obtain ⟨numeral, small⟩ := unsigned?_eq_some_iff.1 read
          obtain ⟨room, rfl⟩ := (fixedBytes_eq_some_iff small).1 h
          exact .fixedBytes numeral room

theorem base?_of_base (h : Base true base ty) : base? base = some ty := by
  cases h with
  | word mem => exact base?_word mem
  | integer mem digits small =>
    rw [base?_integer mem, sized?_eq_some_iff]
    exact .inr ⟨_, digits, small, rfl⟩
  | @fixedBytes cs n numeral small =>
    have read : Text.unsigned? UInt16.size cs = some n :=
      unsigned?_eq_some_iff.2 ⟨numeral, show n < 2 ^ 16 by omega⟩
    rw [base?_bytes numeral.nonempty, read]
    exact (fixedBytes_eq_some_iff (by omega)).2 ⟨small, rfl⟩

theorem Numeral.char (h : Numeral signed cs n) {c : Char} (hc : c ∈ cs) :
    c.isDigit = true ∨ signed = true ∧ c = '+' := by
  cases h with
  | digits h => exact .inl (h.digit c hc)
  | plus sign h =>
    rcases List.mem_cons.1 hc with rfl | hc
    · exact .inr ⟨sign, rfl⟩
    · exact .inl (h.digit c hc)

theorem Base.char (h : Base signed base ty) {c : Char} (hc : c ∈ base) :
    c.isAlphanum = true ∨ signed = true ∧ c = '+' := by
  have plain (w : String) (body : Ty) (mem : (w, body) ∈ words) : w.toList.all Char.isAlphanum = true := by
    simp only [words, List.mem_cons, Prod.mk.injEq, List.not_mem_nil, or_false] at mem
    rcases mem with ⟨rfl, _⟩ | ⟨rfl, _⟩ | ⟨rfl, _⟩ | ⟨rfl, _⟩ | ⟨rfl, _⟩ | ⟨rfl, _⟩ | ⟨rfl, _⟩ <;> rfl
  have digit (c : Char) (h : c.isDigit = true) : c.isAlphanum = true := by rw [Char.isAlphanum, h, Bool.or_true]
  cases h with
  | word mem => exact .inl (List.all_eq_true.1 (plain _ _ mem) c hc)
  | integer mem digits small =>
    rcases List.mem_append.1 hc with hc | hc
    · exact .inl (List.all_eq_true.1 (plain _ _ (word_of_integer mem)) c hc)
    · exact .inl (digit c (digits.digit c hc))
  | fixedBytes numeral small =>
    rcases List.mem_append.1 hc with hc | hc
    · exact .inl (List.all_eq_true.1 (plain "bytes" .bytes (by simp [words])) c hc)
    · exact (numeral.char hc).imp_left (digit c)

def lengthOf (inner : List Char) : Except TypeStringDefect (Option UInt64) :=
  if inner.isEmpty then .ok none
  else
    match Text.unsigned? UInt64.size inner with
    | some n => .ok (some (UInt64.ofNat n))
    | none => .error .lengthNotANumber

theorem lengthOf_ok_iff {inner : List Char} {length : Option UInt64} :
    lengthOf inner = .ok length ↔ Length true inner length := by
  rw [lengthOf]
  by_cases empty : inner = []
  · subst empty
    constructor
    · intro h
      cases h
      exact .dynamic
    · intro h
      cases h with
      | dynamic => rfl
      | fixed numeral _ => exact absurd rfl numeral.nonempty
  · rw [if_neg (by simpa using empty)]
    constructor
    · intro h
      cases read : Text.unsigned? UInt64.size inner with
      | none =>
        rw [read] at h
        cases h
      | some n =>
        rw [read] at h
        cases h
        obtain ⟨numeral, small⟩ := unsigned?_eq_some_iff.1 read
        exact .fixed numeral small
    · intro h
      cases h with
      | dynamic => exact absurd rfl empty
      | @fixed _ n numeral small =>
        have read : Text.unsigned? UInt64.size inner = some n := unsigned?_eq_some_iff.2 ⟨numeral, small⟩
        rw [read]

def Opens (cs : List Char) : Prop := cs = [] ∨ ∃ rest, cs = '[' :: rest

def lengthThen (fuel : Nat) (rest : List Char) (length : Option UInt64) :
    Except TypeStringDefect (List (Option UInt64)) :=
  match rest with
  | [] => .ok [length]
  | '[' :: _ => do return length :: (← suffixesWithin fuel rest)
  | _ => .error .trailingCharacters

theorem suffixesWithin_nil (fuel : Nat) : suffixesWithin fuel [] = .ok [] := by
  cases fuel <;> rfl

theorem suffixesWithin_cons {fuel : Nat} {first : Char} {inner : List Char} (closed : ']' ∉ inner) :
    suffixesWithin (fuel + 1) (first :: (inner ++ ']' :: rest)) = lengthOf inner >>= lengthThen fuel rest := by
  have within : ∀ c ∈ inner, decide (c ≠ ']') = true := by
    intro c hc
    exact decide_eq_true fun same => closed (same ▸ hc)
  have taken : (inner ++ ']' :: rest).takeWhile (· ≠ ']') = inner := by
    rw [List.takeWhile_append_of_pos within]
    simp
  have dropped : (inner ++ ']' :: rest).dropWhile (· ≠ ']') = ']' :: rest := by
    rw [List.dropWhile_append_of_pos within]
    simp
  rw [suffixesWithin, dropped, taken, lengthOf]
  by_cases empty : inner.isEmpty = true
  · rw [if_pos empty]
    simp only [empty, if_true]
    rfl
  · rw [if_neg empty]
    simp only [empty]
    cases Text.unsigned? UInt64.size inner <;> rfl

theorem lengthThen_ok_iff {fuel : Nat} {length : Option UInt64} {lengths : List (Option UInt64)} :
    lengthThen fuel rest length = .ok lengths ↔
      Opens rest ∧ ∃ more, suffixesWithin fuel rest = .ok more ∧ lengths = length :: more := by
  unfold lengthThen
  split
  · simp [suffixesWithin_nil, Opens, eq_comm]
  · next tail =>
    have opens : Opens ('[' :: tail) := .inr ⟨tail, rfl⟩
    cases suffixesWithin fuel ('[' :: tail) with
    | error e => simp [bind, Except.bind]
    | ok more => simp [opens, bind, Except.bind, pure, Except.pure, eq_comm]
  · next none_ other =>
    have shut : ¬ Opens rest := by
      rintro (h | ⟨tail, h⟩)
      · exact none_ h
      · exact other tail h
    simp [shut]

theorem Length.char {inner : List Char} {length : Option UInt64} (h : Length signed inner length) {c : Char}
    (hc : c ∈ inner) : c.isDigit = true ∨ signed = true ∧ c = '+' := by
  cases h with
  | dynamic => cases hc
  | fixed numeral _ => exact numeral.char hc

theorem Length.closed {inner : List Char} {length : Option UInt64} (h : Length signed inner length) :
    ']' ∉ inner := by
  intro mem
  rcases h.char mem with digit | ⟨_, same⟩
  · cases digit
  · cases same

theorem Suffixed.opens (h : Suffixed signed body cs ty) : Opens cs := by
  cases h with
  | done => exact .inl rfl
  | next _ _ => exact .inr ⟨_, rfl⟩

theorem suffixed_of_suffixesWithin {fuel : Nat} {lengths : List (Option UInt64)} (opens : Opens cs)
    (h : suffixesWithin fuel cs = .ok lengths) (body : Ty) : Suffixed true body cs (arrays body lengths) := by
  induction fuel generalizing cs lengths body with
  | zero =>
    rcases opens with rfl | ⟨tail, rfl⟩
    · cases h
      exact .done
    · cases h
  | succ fuel ih =>
    rcases opens with rfl | ⟨tail, rfl⟩
    · cases h
      exact .done
    -- the inner text ends at the first closing bracket, whatever it holds
    · by_cases closing : ']' ∈ tail
      · obtain ⟨inner, rest, rfl, closed⟩ := List.eq_append_cons_of_mem closing
        rw [suffixesWithin_cons closed] at h
        cases read : lengthOf inner with
        | error e =>
          rw [read] at h
          cases h
        | ok length =>
          rw [read] at h
          obtain ⟨opens, more, later, rfl⟩ := lengthThen_ok_iff.1 h
          exact .next (lengthOf_ok_iff.1 read) (ih opens later (.array body length))
      · have none_left : tail.dropWhile (· ≠ ']') = [] := by
          rw [List.dropWhile_eq_nil_iff]
          intro c hc
          exact decide_eq_true fun same => closing (same ▸ hc)
        rw [suffixesWithin, none_left] at h
        cases h

theorem Suffixed.exists_lengths (h : Suffixed true body cs ty) {fuel : Nat} (enough : cs.length ≤ fuel) :
    ∃ lengths, suffixesWithin fuel cs = .ok lengths ∧ arrays body lengths = ty := by
  induction h generalizing fuel with
  | done => exact ⟨[], suffixesWithin_nil fuel, rfl⟩
  | @next _ _ inner rest length read later ih =>
    cases fuel with
    | zero => simp at enough
    | succ fuel =>
      have shorter : rest.length ≤ fuel := by
        simp only [List.length_cons, List.length_append] at enough
        omega
      obtain ⟨more, reads, rfl⟩ := ih shorter
      refine ⟨length :: more, ?_, rfl⟩
      rw [suffixesWithin_cons read.closed, lengthOf_ok_iff.2 read]
      exact lengthThen_ok_iff.2 ⟨later.opens, more, reads, rfl⟩

theorem suffixed_iff (opens : Opens cs) :
    Suffixed true body cs ty ↔ ∃ lengths, suffixes cs = .ok lengths ∧ arrays body lengths = ty := by
  constructor
  · intro h
    exact h.exists_lengths (Nat.le_refl _)
  · rintro ⟨lengths, h, rfl⟩
    exact suffixed_of_suffixesWithin opens h body

theorem splitBase_append (closed : '[' ∉ base) (opens : Opens rest) : splitBase (base ++ rest) = (base, rest) := by
  have within : ∀ c ∈ base, decide (c ≠ '[') = true := by
    intro c hc
    exact decide_eq_true fun same => closed (same ▸ hc)
  rw [splitBase, List.takeWhile_append_of_pos within, List.dropWhile_append_of_pos within]
  rcases opens with rfl | ⟨tail, rfl⟩ <;> simp

theorem append_of_splitBase (h : splitBase cs = (base, rest)) : cs = base ++ rest := by
  cases h
  exact List.takeWhile_append_dropWhile.symm

theorem opens_splitBase (cs : List Char) : Opens (splitBase cs).2 := by
  show Opens (cs.dropWhile (· ≠ '['))
  cases h : cs.dropWhile (· ≠ '[') with
  | nil => exact .inl rfl
  | cons c tail =>
    have first := List.head?_dropWhile_not (· ≠ '[') cs
    rw [h] at first
    have same : c = '[' := by simpa using first
    exact .inr ⟨tail, by rw [same]⟩

def bodyOf (shown type : String) (components : List Param) (base : List Char) : Except ParamError Ty :=
  if base = "tuple".toList then Ty.record <$> fieldsFrom 0 components
  else
    match base? base with
    | some ty => .ok ty
    | none => .error ⟨shown, type, .unknownBase⟩

def suffixedOf (shown type : String) (rest : List Char) (body : Ty) : Except ParamError Ty :=
  match suffixes rest with
  | .ok lengths => .ok (arrays body lengths)
  | .error defect => .error ⟨shown, type, defect⟩

theorem suffixedOf_ok_iff {shown type : String} (opens : Opens rest) :
    suffixedOf shown type rest body = .ok ty ↔ Suffixed true body rest ty := by
  rw [suffixed_iff opens, suffixedOf]
  cases suffixes rest <;> simp

theorem typeOf_eq {shown name type : String} {components : List Param}
    (parts : splitBase (Text.trim type.toList) = (base, rest)) :
    typeOf shown ⟨name, type, components⟩ =
      bodyOf shown type components base >>= suffixedOf shown type rest := by
  rw [typeOf, parts, bodyOf]
  by_cases tuple : base = "tuple".toList
  · simp only [if_pos tuple]
    rfl
  · simp only [if_neg tuple]
    cases base? base <;> rfl

theorem base_ne_tuple (h : Base true base body) : base ≠ "tuple".toList := by
  rintro rfl
  cases base?_of_base h

theorem bodyOf_ok_iff {shown type : String} {components : List Param}
    (members : ∀ fields, fieldsFrom 0 components = .ok fields ↔ Members true 0 components fields) :
    bodyOf shown type components base = .ok body ↔
      (∃ fields, base = "tuple".toList ∧ Members true 0 components fields ∧ body = .record fields) ∨
        Base true base body := by
  rw [bodyOf]
  by_cases tuple : base = "tuple".toList
  · rw [if_pos tuple]
    constructor
    · intro h
      cases found : fieldsFrom 0 components with
      | error e =>
        rw [found] at h
        cases h
      | ok fields =>
        rw [found] at h
        cases h
        exact .inl ⟨fields, tuple, (members fields).1 found, rfl⟩
    · rintro (⟨fields, _, spelled, rfl⟩ | based)
      · rw [(members fields).2 spelled]
        rfl
      · exact absurd tuple (base_ne_tuple based)
  · rw [if_neg tuple]
    constructor
    · intro h
      cases read : base? base with
      | none =>
        rw [read] at h
        cases h
      | some ty =>
        rw [read] at h
        cases h
        exact .inr (base_of_base? read)
    · rintro (⟨_, same, _⟩ | based)
      · exact absurd same tuple
      · rw [base?_of_base based]

theorem Base.shut (h : Base signed base body) : '[' ∉ base := by
  intro mem
  rcases h.char mem with letter | ⟨_, same⟩
  · cases letter
  · cases same

-- By recursion on the parameter and its components, as the types are read.
mutual

theorem typeOf_ok_iff : (p : Param) → ∀ (shown : String) (ty : Ty), typeOf shown p = .ok ty ↔ Spelled true p ty
  | ⟨name, type, components⟩ => by
    intro shown ty
    have members := fieldsFrom_ok_iff components 0
    constructor
    · intro h
      cases parts : splitBase (Text.trim type.toList) with
      | mk base rest =>
        have text := append_of_splitBase parts
        have opens : Opens rest := by
          have rest_opens := opens_splitBase (Text.trim type.toList)
          rwa [parts] at rest_opens
        rw [typeOf_eq parts] at h
        cases read : bodyOf shown type components base with
        | error e =>
          rw [read] at h
          cases h
        | ok body =>
          rw [read] at h
          have suffixed := (suffixedOf_ok_iff opens).1 h
          rcases (bodyOf_ok_iff members).1 read with ⟨fields, rfl, spelled, rfl⟩ | based
          · exact .tuple text spelled suffixed
          · exact .elementary text based suffixed
    · intro h
      cases h with
      | elementary text based suffixed =>
        have parts := splitBase_append based.shut suffixed.opens
        rw [← text] at parts
        rw [typeOf_eq parts, (bodyOf_ok_iff members).2 (.inr based)]
        exact (suffixedOf_ok_iff suffixed.opens).2 suffixed
      | tuple text spelled suffixed =>
        have parts := splitBase_append (show '[' ∉ "tuple".toList by decide) suffixed.opens
        rw [← text] at parts
        rw [typeOf_eq parts, (bodyOf_ok_iff members).2 (.inl ⟨_, rfl, spelled, rfl⟩)]
        exact (suffixedOf_ok_iff suffixed.opens).2 suffixed

theorem fieldsFrom_ok_iff : (params : List Param) → ∀ (position : Nat) (fields : List Field),
    fieldsFrom position params = .ok fields ↔ Members true position params fields
  | [] => by
    intro position fields
    rw [fieldsFrom]
    constructor
    · intro h
      cases h
      exact .nil
    · intro h
      cases h
      rfl
  | ⟨name, type, components⟩ :: rest => by
    intro position fields
    have first := typeOf_ok_iff ⟨name, type, components⟩ (fieldName name position)
    have later := fieldsFrom_ok_iff rest (position + 1)
    rw [fieldsFrom]
    constructor
    · intro h
      cases read : typeOf (fieldName name position) ⟨name, type, components⟩ with
      | error e =>
        rw [read] at h
        cases h
      | ok ty =>
        cases reads : fieldsFrom (position + 1) rest with
        | error e =>
          rw [read, reads] at h
          cases h
        | ok more =>
          rw [read, reads] at h
          cases h
          exact .cons ((first ty).1 read) ((later more).1 reads)
    · intro h
      cases h with
      | cons spelled members =>
        rw [(first _).2 spelled, (later _).2 members]
        rfl

end

theorem mem_of_mem_trim {c : Char} (h : c ∈ Text.trim cs) : c ∈ cs := by
  rw [Text.trim, List.mem_reverse] at h
  have inner := List.mem_reverse.1 ((List.dropWhile_sublist _).subset h)
  exact (List.dropWhile_sublist _).subset inner

end

mutual

def Param.Unsigned : Param → Prop
  | ⟨_, type, components⟩ => '+' ∉ type.toList ∧ AllUnsigned components

def AllUnsigned : List Param → Prop
  | [] => True
  | p :: rest => p.Unsigned ∧ AllUnsigned rest

end

section
variable {signed signed' : Bool} {cs base : List Char} {n : Nat} {ty body : Ty}

/-! Where signs are allowed nothing else changes, and where there are none it does not matter. -/

theorem Numeral.resign (h : Numeral signed cs n) (fine : signed' = true ∨ '+' ∉ cs) : Numeral signed' cs n := by
  cases h with
  | digits h => exact .digits h
  | plus _ h => exact .plus (fine.resolve_right fun none_ => none_ List.mem_cons_self) h

theorem Base.resign (h : Base signed base ty) (fine : signed' = true ∨ '+' ∉ base) : Base signed' base ty := by
  cases h with
  | word mem => exact .word mem
  | integer mem digits small => exact .integer mem digits small
  | fixedBytes numeral small =>
    refine .fixedBytes (numeral.resign (fine.imp_right ?_)) small
    intro none_ mem
    exact none_ (List.mem_append_right _ mem)

theorem Length.resign {length : Option UInt64} (h : Length signed cs length) (fine : signed' = true ∨ '+' ∉ cs) :
    Length signed' cs length := by
  cases h with
  | dynamic => exact .dynamic
  | fixed numeral small => exact .fixed (numeral.resign fine) small

theorem Suffixed.resign (h : Suffixed signed body cs ty) (fine : signed' = true ∨ '+' ∉ cs) :
    Suffixed signed' body cs ty := by
  induction h with
  | done => exact .done
  | next read _ ih =>
    refine .next (read.resign (fine.imp_right ?_)) (ih (fine.imp_right ?_))
    · intro none_ mem
      exact none_ (by simp [mem])
    · intro none_ mem
      exact none_ (by simp [mem])

mutual

theorem Spelled.resign : (p : Param) → ∀ {ty : Ty}, Spelled signed p ty → (signed' = true ∨ p.Unsigned) →
    Spelled signed' p ty
  | ⟨name, type, components⟩, ty, h, fine => by
    have clean : signed' = true ∨ '+' ∉ Text.trim type.toList :=
      fine.imp_right fun unsigned mem => unsigned.1 (mem_of_mem_trim mem)
    cases h with
    | elementary text based suffixed =>
      rw [text] at clean
      refine .elementary text (based.resign (clean.imp_right ?_)) (suffixed.resign (clean.imp_right ?_))
      · intro none_ mem
        exact none_ (List.mem_append_left _ mem)
      · intro none_ mem
        exact none_ (List.mem_append_right _ mem)
    | tuple text members suffixed =>
      rw [text] at clean
      refine .tuple text (Members.resign components members (fine.imp_right And.right))
        (suffixed.resign (clean.imp_right ?_))
      intro none_ mem
      exact none_ (List.mem_append_right _ mem)

theorem Members.resign : (params : List Param) → ∀ {position : Nat} {fields : List Field},
    Members signed position params fields → (signed' = true ∨ AllUnsigned params) →
    Members signed' position params fields
  | [], _, _, h, _ => by
    cases h
    exact .nil
  | ⟨name, type, components⟩ :: rest, _, _, h, fine => by
    cases h with
    | cons spelled members =>
      exact .cons (Spelled.resign ⟨name, type, components⟩ spelled (fine.imp_right And.left))
        (Members.resign rest members (fine.imp_right And.right))

end

theorem Suffixed.plus_not_mem (h : Suffixed false body cs ty) : '+' ∉ cs := by
  induction h with
  | done => exact List.not_mem_nil
  | next read _ ih =>
    intro mem
    rcases List.mem_cons.1 mem with same | mem
    · cases same
    rcases List.mem_append.1 mem with mem | mem
    · rcases read.char mem with digit | ⟨same, _⟩
      · cases digit
      · cases same
    rcases List.mem_cons.1 mem with same | mem
    · cases same
    · exact ih mem

theorem Spelled.plus_not_mem {name type : String} {components : List Param}
    (h : Spelled false ⟨name, type, components⟩ ty) : '+' ∉ Text.trim type.toList := by
  cases h with
  | elementary text based suffixed =>
    rw [text]
    intro mem
    rcases List.mem_append.1 mem with mem | mem
    · rcases based.char mem with letter | ⟨same, _⟩
      · cases letter
      · cases same
    · exact suffixed.plus_not_mem mem
  | tuple text _ suffixed =>
    rw [text]
    intro mem
    rcases List.mem_append.1 mem with mem | mem
    · revert mem
      decide
    · exact suffixed.plus_not_mem mem

end

/-- A parameter has a type exactly if the grammar, with plus signs in front of lengths and sizes, spells
it that type. As long as no type string has such a sign, the grammar without them is exact. -/
theorem typeOf_ok_iff_spelled (shown : String) (p : Param) (ty : Ty) :
    (typeOf shown p = .ok ty ↔ Spelled true p ty) ∧
    (p.Unsigned → (typeOf shown p = .ok ty ↔ Spelled false p ty)) := by
  refine ⟨typeOf_ok_iff p shown ty, fun unsigned => ?_⟩
  rw [typeOf_ok_iff]
  constructor
  · intro h
    exact Spelled.resign p h (.inr unsigned)
  · intro h
    exact Spelled.resign p h (.inl rfl)

theorem typeOf_ok_iff_spelled_tuple :
    let p : Param := ⟨"a", " tuple[2][]", [⟨"b", "bytes4", []⟩, ⟨"c", "int[07]", []⟩]⟩
    let ty : Ty := .array (.array (.record [⟨"b", .elementary ⟨.byte, some 32⟩⟩, ⟨"c", .array (.int 256) (some 7)⟩])
      (some 2)) none
    typeOf "a" p = .ok ty ∧ p.Unsigned ∧ Spelled false p ty := by
  intro p ty
  have read : typeOf "a" p = .ok ty := rfl
  have unsigned : p.Unsigned := by
    simp only [p, Param.Unsigned, AllUnsigned]
    decide
  exact ⟨read, unsigned, ((typeOf_ok_iff_spelled "a" p ty).2 unsigned).1 read⟩

/-- A length with a plus sign is read, though the grammar without signs has no such type. -/
theorem typeOf_signed_length :
    typeOf "a" ⟨"a", "uint8[+3]", []⟩ = .ok (.array (.uint 8) (some 3)) ∧
    ¬ ∃ ty, Spelled false ⟨"a", "uint8[+3]", []⟩ ty := by
  refine ⟨rfl, ?_⟩
  rintro ⟨ty, h⟩
  exact h.plus_not_mem (by decide)

end Interface
end Calldata

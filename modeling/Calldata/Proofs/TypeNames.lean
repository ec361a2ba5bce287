import Calldata.Proofs.Resolution
import Calldata.Proofs.TypeGrammar

/-!
The names of resolved types are type strings. A field whose type is built from elementary types and arrays
gets a node with a name, and a parameter that has this name for its type has the type of the field, with
the widths written out that the field left to their defaults.
-/
namespace Calldata

namespace Text

theorem isBlank_of_isAlphanum {c : Char} (h : c.isAlphanum = true) : isBlank c = false := by
  have ranges : (decide (c.val ≥ 'A'.val ∧ c.val ≤ 'Z'.val) ||
      decide (c.val ≥ 'a'.val) && decide (c.val ≤ 'z'.val) ||
      decide (c.val ≥ '0'.val) && decide (c.val ≤ '9'.val)) = true := h
  simp only [Bool.or_eq_true, Bool.and_eq_true, decide_eq_true_eq, ge_iff_le, UInt32.le_iff_toNat_le, Char.reduceVal,
    UInt32.reduceToNat, Char.toNat_val] at ranges
  simp only [isBlank, blankRanges, List.any_cons, List.any_nil, Bool.or_false, Bool.or_eq_false_iff,
    Bool.and_eq_false_iff, decide_eq_false_iff_not]
  omega

theorem trim_of_shown {cs : List Char} (shown : ∀ c ∈ cs, isBlank c = false) : trim cs = cs := by
  have kept {cs : List Char} (shown : ∀ c ∈ cs, isBlank c = false) : trimLeft cs = cs := by
    refine List.dropWhile_eq_self_iff.2 fun long blank => ?_
    rw [shown _ (List.getElem_mem long)] at blank
    cases blank
  rw [trim, kept shown, kept fun c hc => shown c (List.mem_reverse.1 hc), List.reverse_reverse]

end Text

namespace Ty

/-- Elementary types of a width that exists, and arrays of such that are not empty. -/
inductive Simple : Ty → Prop
  | elementary {e : Elementary} : e.kind.Width e.width.toNat → Simple (.elementary e)
  | array {element : Ty} {length : Option UInt64} : Simple element → length ≠ some 0 → Simple (.array element length)

def explicit : Ty → Ty
  | .elementary e => .ofWidth e.kind e.width
  | .array element length => .array element.explicit length
  | t => t

end Ty

namespace Interface

theorem digits_toString (n : Nat) : Digits (toString n).toList n := by
  have text : (toString n).toList = Nat.toDigits 10 n := Nat.toList_repr
  rw [text]
  refine ⟨Nat.toDigits_ne_nil, fun c hc => Nat.isDigit_of_mem_toDigits (by decide) (by decide) hc, ?_⟩
  rw [← digitsValue_eq]
  exact Nat.ofDigitChars_ten_toDigits.symm

theorem base_canonicalName {e : Elementary} (width : e.kind.Width e.width.toNat) :
    Base false e.canonicalName.toList (.ofWidth e.kind e.width) := by
  have integer {w : String} {kind : ElementaryKind} (mem : (w, kind) ∈ integers) :
      Base false (w ++ toString e.width.toNat).toList (.ofWidth kind e.width) := by
    have base : Base false (w.toList ++ (toString e.width.toNat).toList) (.ofWidth kind (UInt16.ofNat e.width.toNat)) :=
      .integer mem (digits_toString _) e.width.toNat_lt
    rwa [UInt16.ofNat_toNat, ← String.toList_append] at base
  unfold Elementary.canonicalName
  cases kind : e.kind with
  | bool | address | bytes | string =>
    rw [kind] at width
    have same : e.width = e.kind.defaultBits := by
      rw [kind]
      exact UInt16.toNat_inj.1 width
    rw [same, kind]
    exact .word (by simp [words, ElementaryKind.defaultBits, Ty.bool, Ty.address, Ty.bytes, Ty.string])
  | uint | int => exact integer (by simp [integers])
  | byte =>
    rw [kind] at width
    have size : 8 * (e.width.toNat / 8) = e.width.toNat := Nat.mul_div_cancel' width.1
    have base : Base false ("bytes".toList ++ (toString (e.width.toNat / 8)).toList)
        (.ofWidth .byte (UInt16.ofNat (8 * (e.width.toNat / 8)))) :=
      .fixedBytes (.digits (digits_toString _)) (by rw [size]; exact e.width.toNat_lt)
    rwa [size, UInt16.ofNat_toNat, ← String.toList_append] at base

theorem exists_arraySuffix (length : Option UInt64) :
    ∃ inner, (Interning.arraySuffix length).toList = '[' :: (inner ++ [']']) ∧ Length false inner length := by
  cases length with
  | none => exact ⟨[], rfl, .dynamic⟩
  | some n =>
    have read : Length false (toString n.toNat).toList (some (UInt64.ofNat n.toNat)) :=
      .fixed (.digits (digits_toString _)) n.toNat_lt
    rw [UInt64.ofNat_toNat] at read
    exact ⟨_, by simp [Interning.arraySuffix], read⟩

theorem Suffixed.snoc {body ty : Ty} {cs inner : List Char} {length : Option UInt64} (h : Suffixed false body cs ty)
    (read : Length false inner length) : Suffixed false body (cs ++ '[' :: (inner ++ [']'])) (.array ty length) := by
  induction h with
  | done => exact .next read .done
  | next first _ ih =>
    simp only [List.cons_append, List.append_assoc]
    exact .next first ih

/-- A text that spells a type without white space, signs or tuples. -/
def Names (text : String) (ty : Ty) : Prop :=
  ∃ base rest body, text.toList = base ++ rest ∧ Base false base body ∧ Suffixed false body rest ty

theorem Names.array {text : String} {ty : Ty} (h : Names text ty) (length : Option UInt64) :
    Names (text ++ Interning.arraySuffix length) (.array ty length) := by
  obtain ⟨base, rest, body, eq, based, suffixed⟩ := h
  obtain ⟨inner, suffix, read⟩ := exists_arraySuffix length
  refine ⟨base, rest ++ '[' :: (inner ++ [']']), body, ?_, based, suffixed.snoc read⟩
  rw [String.toList_append, eq, suffix, List.append_assoc]

theorem Suffixed.char {signed : Bool} {body ty : Ty} {cs : List Char} (h : Suffixed signed body cs ty) {c : Char}
    (hc : c ∈ cs) : c.isAlphanum = true ∨ c = '[' ∨ c = ']' ∨ signed = true ∧ c = '+' := by
  induction h with
  | done => cases hc
  | next read _ ih =>
    simp only [List.mem_cons, List.mem_append] at hc
    rcases hc with rfl | hc | rfl | hc
    · exact .inr (.inl rfl)
    · rcases read.char hc with digit | plus
      · rw [Char.isAlphanum, digit, Bool.or_true]
        exact .inl rfl
      · exact .inr (.inr (.inr plus))
    · exact .inr (.inr (.inl rfl))
    · exact ih hc

theorem Names.isBlank {text : String} {ty : Ty} (h : Names text ty) {c : Char} (hc : c ∈ text.toList) :
    Text.isBlank c = false := by
  obtain ⟨base, rest, body, eq, based, suffixed⟩ := h
  rw [eq] at hc
  rcases List.mem_append.1 hc with hc | hc
  · rcases based.char hc with shown | ⟨sign, _⟩
    · exact Text.isBlank_of_isAlphanum shown
    · cases sign
  · rcases suffixed.char hc with shown | rfl | rfl | ⟨sign, _⟩
    · exact Text.isBlank_of_isAlphanum shown
    · rfl
    · rfl
    · cases sign

/-- A name for a type is a type string for it, whatever the parameter is called. -/
theorem Names.typeOf {text : String} {ty : Ty} (h : Names text ty) (shown name : String) (components : List Param) :
    typeOf shown ⟨name, text, components⟩ = .ok ty := by
  have trimmed : Text.trim text.toList = text.toList := Text.trim_of_shown fun c hc => h.isBlank hc
  obtain ⟨base, rest, body, eq, based, suffixed⟩ := h
  rw [typeOf_ok_iff]
  exact .elementary (trimmed.trans eq) (based.resign (.inl rfl)) (suffixed.resign (.inl rfl))

end Interface

def Arena.NamedFor (a : Arena) (id : NodeId) (t : Ty) : Prop :=
  ∃ node, a.get? id = some node ∧ Interface.Names node.name t

theorem Arena.NamedFor.later {a b : Arena} {id : NodeId} {t : Ty} (h : a.NamedFor id t)
    (same : ∀ id < a.size, b.get? id = a.get? id) : b.NamedFor id t := by
  obtain ⟨node, found, names⟩ := h
  exact ⟨node, (same id (Array.getElem?_eq_some_iff.1 found).1).trans found, names⟩

namespace Interning
variable {expand : String → String → Interning NodeId}

theorem nameOf_run {a : Arena} {id : NodeId} {node : Node} (found : a.get? id = some node) :
    (nameOf id).run.run a = (.ok node.name, a) := by
  show (Except.ok (((a.get? id).map Node.name).getD ""), a) = _
  rw [found]
  rfl

/-- A type that is built from elementary types and arrays is not refused, and its node has a name for it. -/
theorem internWith_simple (expand : String → String → Interning NodeId) (owner : String) {t : Ty} (simple : t.Simple)
    (a : Arena) : ∃ id later, (internWith expand owner none t).run.run a = (.ok id, later) ∧
      later.NamedFor id t.explicit := by
  induction simple generalizing a with
  | @elementary e width =>
    have interned : internWith expand owner none (.elementary e) = push e.canonicalName (.elementary e) := by
      rw [internWith, if_pos (Elementary.isValid_iff.2 width)]
    refine ⟨a.next, a.push ⟨e.canonicalName, .elementary e⟩, by rw [interned]; rfl, _,
      (a.get?_push _ _).trans (if_pos rfl), ?_⟩
    exact ⟨_, [], _, (List.append_nil _).symm, Interface.base_canonicalName width, .done⟩
  | @array element length _ filled ih =>
    obtain ⟨child, b, run, node, found, names⟩ := ih a
    refine ⟨b.next, b.push ⟨node.name ++ arraySuffix length, .array child length⟩, ?_, _,
      (b.get?_push _ _).trans (if_pos rfl), names.array length⟩
    rw [internWith, if_neg filled, run_bind, run]
    show (nameOf child >>= fun name => push (name ++ arraySuffix length) (.array child length)).run.run b = _
    rw [run_bind, nameOf_run found]
    rfl

theorem internFields_named (roots : ∀ owner name, Keeps (expand owner name) Root) (owner : String)
    {fields : List Field} {seen : List String} {a later : Arena} {ids : List (String × NodeId)} (forest : a.Forest)
    (h : (internFields expand owner seen fields).run.run a = (.ok ids, later)) :
    List.Forall₂ (fun f i => f.name = i.1 ∧ (f.type.Simple → later.NamedFor i.2 f.type.explicit)) fields ids := by
  induction fields generalizing seen a ids with
  | nil =>
    rw [internFields] at h
    cases h
    exact .nil
  | cons f rest ih =>
    obtain ⟨name, type⟩ := f
    rw [internFields] at h
    split at h
    · cases h
    · obtain ⟨child, b, inner, h⟩ := run_bind_ok h
      obtain ⟨others, _, tail, h⟩ := run_bind_ok h
      cases h
      obtain ⟨forest', _, _⟩ := keeps_internWith roots owner none type a forest _ b inner
      obtain ⟨_, longer, _⟩ := keeps_internFields roots owner (name :: seen) rest b forest' _ later tail
      refine .cons ⟨rfl, fun simple => ?_⟩ (ih forest' tail)
      obtain ⟨id, b', run, named⟩ := internWith_simple expand owner simple a
      rw [inner] at run
      cases run
      exact named.later fun _ => longer.same

end Interning

namespace Resolver
variable {r : Resolver} {name : String} {params : List Field} {id : NodeId}

theorem params_named (forest : r.arena.Forest) (resolved : (r.resolveParams name params).1 = .ok id) :
    ∃ ids, (r.resolveParams name params).2.arena.get? id = some ⟨name, .record ids⟩ ∧
      List.Forall₂ (fun f i => f.name = i.1 ∧
        (f.type.Simple → (r.resolveParams name params).2.arena.NamedFor i.2 f.type.explicit)) params ids := by
  have run : (Interning.internWith (Interning.expand r.definitions (r.definitions.length + 1) []) name (some name)
      (.record params)).run.run r.arena = (.ok id, (r.resolveParams name params).2.arena) := Prod.ext resolved rfl
  have keeps := Interning.keeps_expand r.definitions (r.definitions.length + 1) []
  generalize (r.resolveParams name params).2.arena = later at run
  rw [Interning.internWith] at run
  obtain ⟨ids, b, inner, run⟩ := Interning.run_bind_ok run
  have named := Interning.internFields_named keeps name forest inner
  cases run
  refine ⟨ids, (b.get?_push _ _).trans (if_pos rfl), named.imp fun f i h => ⟨h.1, fun simple => ?_⟩⟩
  exact (h.2 simple).later fun id old => by rw [b.get?_push, if_neg (Nat.ne_of_lt old)]

end Resolver

/-- A field whose type is built from elementary types and arrays, of any resolver and any record, is never refused,
and the name of its node, as the type string of a parameter, gives back its type with all widths written out. So it
is for the fields of a parameter list that was resolved after any calls, then and after all later calls. -/
theorem field_names_read_back :
    (∀ (expand : String → String → Interning NodeId) (owner : String) (a : Arena) (t : Ty), t.Simple →
      ∃ id later node, (Interning.internWith expand owner none t).run.run a = (.ok id, later) ∧
        later.get? id = some node ∧
        ∀ shown name components, Interface.typeOf shown ⟨name, node.name, components⟩ = .ok t.explicit) ∧
    ∀ (calls later : List Call) (name : String) (params : List Field) (id : NodeId),
      ((Resolver.history calls).resolveParams name params).1 = .ok id →
      let a := (Resolver.history (calls ++ .resolveParams name params :: later)).arena
      ∃ ids, a.get? id = some ⟨name, .record ids⟩ ∧
        List.Forall₂ (fun f i => f.name = i.1 ∧ (f.type.Simple → ∃ node, a.get? i.2 = some node ∧
          ∀ shown name components, Interface.typeOf shown ⟨name, node.name, components⟩ = .ok f.type.explicit))
          params ids := by
  constructor
  · intro expand owner a t simple
    obtain ⟨id, later, run, node, found, names⟩ := Interning.internWith_simple expand owner simple a
    exact ⟨id, later, node, run, found, names.typeOf⟩
  · intro calls later name params id resolved a
    have reachable : (Resolver.history calls).Reachable := Resolver.reachable_foldl .empty calls
    have longer := Resolver.extends_foldl (reachable.after (.resolveParams name params)) later
    have whole : a = (later.foldl Resolver.after ((Resolver.history calls).after (.resolveParams name params))).arena := by
      show (Resolver.history (calls ++ .resolveParams name params :: later)).arena = _
      rw [Resolver.history, List.foldl_append, List.foldl_cons]
      rfl
    rw [← whole] at longer
    obtain ⟨ids, found, named⟩ := Resolver.params_named reachable.forest resolved
    have kept := longer.same (Array.getElem?_eq_some_iff.1 found).1
    refine ⟨ids, kept.trans found, named.imp fun f i h => ⟨h.1, fun simple => ?_⟩⟩
    obtain ⟨node, found, names⟩ := (h.2 simple).later fun _ => longer.same
    exact ⟨node, found, names.typeOf⟩

/-- Byte strings of the default width, in an array of the largest length inside a dynamic one. -/
theorem field_names_read_back_grid :
    let grid : Ty := .array (.array (.elementary ⟨.byte, none⟩) (some 0xFFFFFFFFFFFFFFFF)) none
    grid.Simple ∧ grid.explicit = .array (.array (.ofWidth .byte 256) (some 0xFFFFFFFFFFFFFFFF)) none ∧
    (∃ id later node, (Interning.internWith (Interning.expand [] 0 []) "f" none grid).run.run .empty = (.ok id, later) ∧
      later.get? id = some node ∧ Interface.typeOf "p" ⟨"p", node.name, []⟩ = .ok grid.explicit) ∧
    let a := (Resolver.history [.resolveParams "f" [⟨"grid", grid⟩], .resolveAll]).arena
    a.get? 3 = some ⟨"f", .record [("grid", 2)]⟩ ∧
      ∃ node, a.get? 2 = some node ∧ Interface.typeOf "p" ⟨"p", node.name, []⟩ = .ok grid.explicit := by
  intro grid
  have simple : grid.Simple := .array (.array (.elementary (Elementary.width_of_isValid (by decide))) (by decide)) (by decide)
  obtain ⟨fields, params⟩ := field_names_read_back
  refine ⟨simple, rfl, ?_, rfl, ?_⟩
  · obtain ⟨id, later, node, run, found, read⟩ := fields (Interning.expand [] 0 []) "f" .empty grid simple
    exact ⟨id, later, node, run, found, read "p" "p" []⟩
  · obtain ⟨ids, found, named⟩ := params [] [.resolveAll] "f" [⟨"grid", grid⟩] 3 rfl
    obtain rfl : [("grid", 2)] = ids := by
      cases found
      rfl
    cases named with
    | cons first _ =>
      obtain ⟨node, found, read⟩ := first.2 simple
      exact ⟨node, found, read "p" "p" []⟩

end Calldata

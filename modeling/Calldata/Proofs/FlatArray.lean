import Calldata.Proofs.Compose
import Calldata.Proofs.Flat

/-!
Arrays of elements without pointers. All bodies are the same in calldata and in memory and stand side
by side in both, so one copy takes them all; only the pointers to them are written one by one.
-/
namespace Calldata
open Cell Value

namespace Value

def Flat (v : Value) : Prop := ∃ parts, v = .tuple parts ∧ ∀ w ∈ parts, w.isWord = true

theorem Flat.image {v : Value} (h : v.Flat) (address : Int) : v.image address = v.cells := by
  obtain ⟨parts, rfl, words⟩ := h
  exact (image_of_words words address).1

theorem Flat.size {v : Value} (h : v.Flat) : v.size = v.extent := by
  obtain ⟨parts, rfl, words⟩ := h
  exact (size_of_words words).1.trans (size_of_words words).2.symm

theorem Flat.isWord {v : Value} (h : v.Flat) : v.isWord = false := by
  obtain ⟨parts, rfl, _⟩ := h
  rfl

theorem Flat.isDynamic {v : Value} (h : v.Flat) : v.isDynamic = false := by
  obtain ⟨parts, rfl, words⟩ := h
  rw [Value.isDynamic]
  induction parts with
  | nil => rfl
  | cons w rest ih =>
    rw [anyDynamic, ih fun v hv => words v (by simp [hv])]
    cases w with
    | word n => rfl
    | bytes _ _ | tuple _ | list _ => cases words _ List.mem_cons_self

theorem bodies_of_flat {vs : List Value} {stride : Nat} (flat : ∀ v ∈ vs, v.Flat)
    (sizes : ∀ v ∈ vs, v.size = stride) (next : Int) (offset : Nat) :
    bodies next vs = heads offset vs ∧ tailSizes vs = 0 ∧ bodySizes vs = vs.length * stride ∧
      headSizes vs = vs.length * stride := by
  induction vs generalizing next with
  | nil => simp [bodies, heads, tailSizes, bodySizes, headSizes]
  | cons v rest ih =>
    have first := flat v (by simp)
    have size := sizes v (by simp)
    obtain ⟨hb, ht, hs, hh⟩ := ih (fun v hv => flat v (by simp [hv])) (fun v hv => sizes v (by simp [hv]))
      (next + stride)
    simp [bodies, heads, tailSizes, bodySizes, headSizes, headSize, first.isWord, first.isDynamic,
      first.image, hb, ht, hs, hh, ← first.size, size, Nat.succ_mul, Nat.add_comm]

theorem firmIn_flat {vs : List Value} (flat : ∀ v ∈ vs, v.Flat) {slot next place : Int}
    (h : FirmIn slot next vs place) : place < slot + 32 * vs.length := by
  induction vs generalizing slot next with
  | nil => exact h.elim
  | cons v rest ih =>
    rw [List.length_cons]
    rcases h with ⟨_, here | ⟨_, _, firm⟩⟩ | later
    · omega
    · obtain ⟨parts, rfl, words⟩ := flat v List.mem_cons_self
      rw [Firm] at firm
      exact absurd firm (not_firmIn_words words)
    · have := ih (fun v hv => flat v (List.mem_cons_of_mem _ hv)) later
      omega

end Value

theorem Act.good_point_flat {u : Wire} {before : List Cell} {address : Int} {vs : List Value}
    {stride i : Nat} (flat : ∀ v ∈ vs, v.Flat) (sizes : ∀ v ∈ vs, v.size = stride) (hi : i < vs.length)
    {p : Pointer} {v : Values} (dst : p.dst.read v u = before.length + 32 * i)
    (value : p.value.read v u = before.length + 32 * vs.length + i * stride) :
    (point p v).Good u address (block before address vs) := by
  have whole : vs.take i ++ vs[i] :: vs.drop (i + 1) = vs := by simp
  have length : (vs.take i).length = i := by
    rw [List.length_take]
    omega
  have earlier := (@bodies_of_flat (vs.take i) stride (fun v hv => flat v (List.mem_of_mem_take hv))
    (fun v hv => sizes v (List.mem_of_mem_take hv)) 0 0).2.2.1
  rw [← whole]
  refine good_point (flat _ (List.getElem_mem hi)).isWord ?_ ?_
  · rw [dst, length]
  · rw [value, earlier, length, whole]
    push_cast
    rfl

/-- One copy takes all bodies. -/
theorem Act.good_copy_flat {u : Wire} {before : List Cell} {address : Int} {vs : List Value}
    {stride : Nat} (flat : ∀ v ∈ vs, v.Flat) (sizes : ∀ v ∈ vs, v.size = stride) {c : Copy} {v : Values}
    (dst : c.dst.read v u = before.length + 32 * vs.length) (size : c.size.read v u = vs.length * stride)
    (found : (u.drop (c.src.read v u)).Matches (heads (headSizes vs) vs)) :
    (copy c v).Good u address (block before address vs) := by
  obtain ⟨bodies_eq, _, bodies_size, _⟩ := bodies_of_flat flat sizes
    (address + (before.length + 32 * vs.length)) (headSizes vs)
  have image : block before address vs = (before ++ slots (address + (before.length + 32 * vs.length)) vs) ++
      (heads (headSizes vs) vs ++ []) := by
    rw [block, bodies_eq, List.append_nil, List.append_assoc]
  have length : (before ++ slots (address + (before.length + 32 * vs.length)) vs).length =
      before.length + 32 * vs.length := by
    rw [List.length_append, length_slots]
  have part : ((heads (headSizes vs) vs).length : Int) = vs.length * stride := by
    rw [← bodies_eq, length_bodies, bodies_size]
    push_cast
    rfl
  have place : c.dst.read v u = (before ++ slots (address + (before.length + 32 * vs.length)) vs).length + 0 := by
    rw [dst, length]
    push_cast
    omega
  have nonneg : (0 : Int) ≤ vs.length * stride := part ▸ Int.natCast_nonneg _
  refine ⟨by omega, by omega, ?_, ?_⟩
  · rw [dst, size, length_block, bodies_size]
    push_cast
    omega
  · rw [image, place, size, cut_middle _ _ _ (Int.le_refl 0) nonneg (by omega), cut, part.symm]
    simpa using found

structure Part.Flat (p : Part) : Prop where
  regular : p.Regular
  static : p.isDynamic = false
  flat (u : Wire) : (p.decode u).Flat
  found (u : Wire) : u.Matches (p.decode u).cells

namespace Part.Flat
variable {p : Part} {strict : Bool}

theorem size (h : p.Flat) (u : Wire) : (p.decode u).size = p.headSize := by
  rw [(h.flat u).size, ← h.regular.headSize u, Value.headSize, h.regular.isDynamic, h.static]
  simp

theorem tuple (h : p.Flat) (n : Nat) (u : Wire) :
    (∀ v ∈ Part.tuple strict (List.replicate n p) u, v.Flat) ∧
      (∀ v ∈ Part.tuple strict (List.replicate n p) u, v.size = p.headSize) ∧
      (Part.tuple strict (List.replicate n p) u).length = n ∧
      u.Matches (heads (Value.headSizes (Part.tuple strict (List.replicate n p) u))
        (Part.tuple strict (List.replicate n p) u) ++ tails (Part.tuple strict (List.replicate n p) u)) := by
  have element (v : Value) (hv : v ∈ Part.tuple strict (List.replicate n p) u) :
      ∃ u', v = p.decode u' := by
    obtain ⟨q, hq, u', rfl⟩ := Part.mem_walk hv
    exact ⟨u', List.eq_of_mem_replicate hq ▸ rfl⟩
  refine ⟨fun v hv => ?_, fun v hv => ?_, ?_, ?_⟩
  · obtain ⟨u', rfl⟩ := element v hv
    exact h.flat u'
  · obtain ⟨u', rfl⟩ := element v hv
    exact h.size u'
  · exact Tree.length_tuple_replicate strict n p u
  · have regular : ∀ q ∈ List.replicate n p, q.Regular := fun q hq => List.eq_of_mem_replicate hq ▸ h.regular
    rw [matches_frame, Part.tuple, Part.headSizes_walk regular]
    exact Part.aligned_walk regular (fun q hq => List.eq_of_mem_replicate hq ▸ ⟨h.static, h.found⟩) _ _

end Part.Flat

namespace Plan
variable {strict : Bool} {p part : Part}

theorem mem_acts_flatElements {scope : String} {n stride : Nat} {u : Wire} {v : Values} {a : Act} :
    a ∈ (ofFlatElements scope n stride).acts u v ↔
      a = .copy ⟨.ofNat (32 * n), .literal 0, .ofNat (n * stride), [scope ++ "[*]"]⟩ v ∨
        ∃ i < n, a = .point ⟨.ofNat (32 * i), .ofNat (32 * n) + .ofNat (i * stride),
          some s!"{scope}[{i}]"⟩ v := by
  have words (i : Nat) : Term.words i = .ofNat (32 * i) := by rw [Term.words_eq, Nat.mul_comm]
  have bodies (i : Nat) : Term.ofNat (capped (i * stride)) = .ofNat (i * stride) := Term.ofNat_capped _
  simp only [ofFlatElements, acts, inner, level, last, empty, Tracer.loops, Tracer.done,
    List.flatMap_nil, List.map_nil, List.nil_append, List.map_cons, List.map_map, List.mem_append,
    List.mem_singleton, List.mem_map, List.mem_range, Function.comp_apply, words, bodies, eq_comm]

theorem plain_flatElements (scope : String) (n stride : Nat) : (ofFlatElements scope n stride).Plain := by
  refine ⟨?_, ?_, trivial, by simp [empty], (Term.Plain.ofNat _).sum (.ofNat _), ?_⟩
  · simp only [List.mem_map, forall_exists_index, and_imp, forall_apply_eq_imp_iff₂]
    exact fun i _ => ⟨.ofNat _, (Term.Plain.ofNat _).sum (.ofNat _)⟩
  · exact List.forall_mem_singleton.2 ⟨.ofNat _, .literal (by simp), .ofNat _⟩
  · rintro t ⟨⟩
    exact .ofNat _

theorem names_flatElements (scope : String) (n stride : Nat) : (ofFlatElements scope n stride).names = [] := by
  refine List.eq_nil_iff_forall_not_mem.2 fun name hn => ?_
  simp [ofFlatElements, names, level, empty, Act.mentions, Term.mem_occurrences_add, Term.words,
    Term.ofNat, Term.occurrences] at hn

/-- Flat elements of known number, when no literal is cut off. -/
structure FlatTuple (u : Wire) (stride : Nat) (vs : List Value) : Prop where
  flat : ∀ x ∈ vs, x.Flat
  sizes : ∀ x ∈ vs, x.size = stride
  found : u.Matches (heads (headSizes vs) vs ++ tails vs)
  small : 32 * (vs.length : Int) + (vs.length * stride : Nat) < Term.top

namespace FlatTuple
variable {u : Wire} {n stride : Nat} {vs : List Value} {scope : String} {v : Values} {address : Int}

theorem of_fits (flat : p.Flat) (fits : (ofFlatElements scope n p.headSize).Fits v u
      (.tuple (Part.tuple strict (List.replicate n p) u))) :
    FlatTuple u p.headSize (Part.tuple strict (List.replicate n p) u) := by
  obtain ⟨flats, sizes, length, found⟩ := @Part.Flat.tuple p strict flat n u
  refine ⟨flats, sizes, found, ?_⟩
  have top0 : (0 : Int) < Term.top := by simp [Term.top]
  rcases fits with small | ⟨bound, low, within⟩
  · rw [Value.size, (bodies_of_flat flats sizes 0 0).2.2.1] at small
    omega
  · have : _ + _ ≤ bound := within _ (mem_acts_flatElements.2 (.inl rfl))
    simp only [Term.read_ofNat] at this
    rw [length]
    omega

theorem size (t : FlatTuple u stride vs) : (tuple vs).size = 32 * vs.length + vs.length * stride := by
  rw [Value.size, (bodies_of_flat t.flat t.sizes 0 0).2.2.1]

theorem extent (t : FlatTuple u stride vs) : (tuple vs).extent = vs.length * stride := by
  obtain ⟨_, tails, _, heads⟩ := bodies_of_flat t.flat t.sizes 0 0
  rw [Value.extent, extents_eq, heads, tails, Nat.add_zero]

theorem read_literal (t : FlatTuple u stride vs) {m : Nat} (hm : m ≤ 32 * vs.length ∨ m ≤ vs.length * stride)
    (v : Values) : (Term.ofNat m).read v u = m := by
  have small := t.small
  rw [Term.read_ofNat]
  omega

theorem stride_le (_ : FlatTuple u stride vs) {i : Nat} (hi : i < vs.length) :
    i * stride ≤ vs.length * stride := Nat.mul_le_mul_right _ (Nat.le_of_lt hi)

theorem read_pointer (t : FlatTuple u stride vs) {i : Nat} (hi : i < vs.length) (v : Values) :
    (Term.ofNat (32 * i)).read v u = 32 * i ∧
      (Term.ofNat (32 * vs.length) + Term.ofNat (i * stride)).read v u = 32 * vs.length + i * stride := by
  rw [Term.read_add, t.read_literal (by omega), t.read_literal (by omega), t.read_literal (.inr (t.stride_le hi))]
  push_cast
  exact ⟨rfl, rfl⟩

theorem good (t : FlatTuple u stride vs) : ∀ a ∈ (ofFlatElements scope vs.length stride).acts u v,
    a.Good u address ((tuple vs).image address) := by
  rw [image_tuple]
  intro a ha
  rcases mem_acts_flatElements.1 ha with rfl | ⟨i, hi, rfl⟩
  · have found := t.found
    rw [Wire.matches_append] at found
    refine Act.good_copy_flat t.flat t.sizes ?_ ?_ ?_
    · rw [t.read_literal (by omega)]
      simp
    · rw [t.read_literal (by omega)]
      push_cast
      rfl
    · simpa [Term.read_literal] using found.1
  · refine Act.good_point_flat t.flat t.sizes hi ?_ ?_
    · rw [(t.read_pointer hi v).1]
      simp
    · rw [(t.read_pointer hi v).2]
      simp

theorem covers (t : FlatTuple u stride vs) {i : Nat} (hi : i < (tuple vs).size) :
    ∃ a ∈ (ofFlatElements scope vs.length stride).acts u v, a.Touches u i := by
  rw [t.size] at hi
  by_cases low : i < 32 * vs.length
  · refine ⟨_, mem_acts_flatElements.2 (.inr ⟨i / 32, by omega, rfl⟩), ?_⟩
    simp only [Act.Touches, (t.read_pointer (i := i / 32) (by omega) v).1]
    omega
  · refine ⟨_, mem_acts_flatElements.2 (.inl rfl), ?_⟩
    simp only [Act.Touches]
    rw [t.read_literal (by omega), t.read_literal (by omega)]
    omega

theorem spares (t : FlatTuple u stride vs) {lengths : String → Prop} :
    ∀ a ∈ (ofFlatElements scope vs.length stride).acts u v, a.Spares lengths u (tuple vs).Firm := by
  intro a ha
  rcases mem_acts_flatElements.1 ha with rfl | ⟨i, _, rfl⟩
  · intro _ place low _ firm
    rw [t.read_literal (by omega)] at low
    rw [Firm] at firm
    have := firmIn_flat t.flat firm
    omega
  · trivial

theorem ready (t : FlatTuple u stride vs) : ∀ a ∈ (ofFlatElements scope vs.length stride).acts u v,
    a.Ready u (tuple vs).extent (tuple vs).size := by
  intro a ha
  rcases mem_acts_flatElements.1 ha with rfl | ⟨i, hi, rfl⟩
  · refine ⟨⟨.ofNat _, .literal (by simp), .ofNat _⟩, .ofNat _, .literal _, .ofNat _, ?_⟩
    rw [Term.read_literal]
    simp
  · refine ⟨⟨.ofNat _, (Term.Plain.ofNat _).sum (.ofNat _)⟩, .ofNat _,
      Term.Ready.add (.ofNat _) (.ofNat _), ?_⟩
    have := t.stride_le hi
    rw [(t.read_pointer hi v).2, t.size]
    push_cast
    omega

theorem decodes (t : FlatTuple u stride vs) :
    (ofFlatElements scope vs.length stride).Decodes strict v u address (tuple vs) where
  size := by
    show (Term.words vs.length + Term.ofNat (capped (vs.length * stride))).read v u = _
    rw [t.size, Term.read_add, Term.words_eq, Term.ofNat_capped, t.read_literal (by omega),
      t.read_literal (by omega)]
    push_cast
    omega
  extent := by
    rintro _ ⟨⟩
    show (Term.ofNat (capped (vs.length * stride))).read v u = _
    rw [t.extent, Term.ofNat_capped, t.read_literal (by omega)]
  good := t.good
  covers _ := t.covers
  spares := t.spares
  agrees := by
    refine iff_of_true (fun a ha => ?_) fun _ => ?_
    · rcases mem_acts_flatElements.1 ha with rfl | ⟨i, _, rfl⟩ <;> trivial
    · rw [cells]
      exact t.found
  ready _ _ := by
    refine ⟨t.ready, Term.Ready.add (.ofNat _) (.ofNat _), ?_⟩
    rintro _ ⟨⟩
    exact .ofNat _

end FlatTuple

theorem sound_flatElements (scope : String) (n : Nat) (flat : p.Flat)
    (head : part.headSize = n * p.headSize)
    (value : ∀ u, part.decode u = .tuple (Part.tuple strict (List.replicate n p) u)) :
    (ofFlatElements scope n p.headSize).Sound strict part where
  plain := plain_flatElements scope n p.headSize
  closed := by simp [names_flatElements]
  measured := by simp [ofFlatElements]
  written bound _ copies _ := by
    rw [ofFlatElements, Term.sample, Term.denote_add]
    exact copies _ (List.mem_singleton.2 rfl)
  floor _ := by
    have top0 : (0 : Int) < Term.top := by simp [Term.top]
    rw [head, ofFlatElements, Term.sample, Term.denote_add, Term.words_eq, Term.ofNat_capped,
      Term.denote_ofNat, Term.denote_ofNat]
    omega
  decodes v u address _ _ fits := by
    rw [value] at fits ⊢
    have elements := @FlatTuple.decodes strict _ _ _ scope v address (FlatTuple.of_fits flat fits)
    rwa [Tree.length_tuple_replicate] at elements

theorem forall_acts_rounds {round : Nat → Tracer} {P : Act → Prop} {Q : Nat → Prop}
    (each : ∀ i v, (∀ a ∈ (round i v).2.flatMap Event.acts, P a) ↔ Q i) (count index : Nat) (v : Values) :
    (∀ a ∈ (Tracer.rounds round count index v).2.flatMap Event.acts, P a) ↔
      ∀ i, index ≤ i → i < index + count → Q i := by
  induction count generalizing index v with
  | zero =>
    refine iff_of_true (by simp [Tracer.rounds, Tracer.done]) fun i _ _ => ?_
    omega
  | succ count ih =>
    simp only [Tracer.rounds, Tracer.andThen, List.flatMap_append, List.forall_mem_append, each, ih]
    constructor
    · rintro ⟨first, later⟩ i low high
      by_cases h : i = index
      · exact h ▸ first
      · exact later i (by omega) (by omega)
    · intro h
      exact ⟨h index (by omega) (by omega), fun i low high => h i (by omega) (by omega)⟩

def flatPointer (scope : String) (stride : Nat) : Pointer :=
  ⟨elementSlot (.var (scope ++ ".index")), elementsEnd + .var (scope ++ ".index") * .ofNat stride,
    some (scope ++ "[]")⟩

def flatCopy (scope : String) (stride : Nat) : Copy :=
  ⟨elementsEnd, .words 1, elementCount * .ofNat stride, [scope ++ "[*]"]⟩

theorem occurrences_elementsEnd : elementsEnd.occurrences = [] := rfl

theorem mem_mentions_flat {scope n : String} {stride : Nat} {v : Values}
    (h : n ∈ (Act.point (flatPointer scope stride) v).mentions) : n = scope ++ ".index" := by
  have scaled {k : Int64} (h : n ∈ (Term.var (scope ++ ".index") * .literal k).occurrences) :
      n = scope ++ ".index" := by
    simpa [Term.occurrences] using Term.of_mem_occurrences_scale h
  simp only [flatPointer, Act.mentions, elementSlot, List.mem_append, Term.mem_occurrences_add,
    occurrences_elementsEnd, Term.words, Term.ofNat, Term.occurrences, List.not_mem_nil, or_false,
    false_or] at h
  exact h.elim scaled scaled

theorem forall_acts_flatList {scope : String} {stride : Nat} {u : Wire} {v : Values} {P : Act → Prop}
    (hP : Act.Local P) :
    (∀ a ∈ (ofFlatDynamicArray scope stride).acts u v, P a) ↔ P (.count elementCount v) ∧
      (∀ i < u.number 0 32, P (.point (flatPointer scope stride) (v.set (scope ++ ".index") i))) ∧
        P (.copy (lengthCopy scope) v) ∧ P (.copy (flatCopy scope stride) v) := by
  have count : (elementCount.read v u).toNat = u.number 0 32 := rfl
  have round (i : Nat) (w : Values) : (∀ a ∈ (Tracer.andThen (fun w => Tracer.plan u
      { empty with pointers := [flatPointer scope stride] } (w.set (scope ++ ".index") i))
        (Tracer.advance u []) w).2.flatMap Event.acts, P a) ↔
      P (.point (flatPointer scope stride) (v.set (scope ++ ".index") i)) := by
    have alone : (Tracer.andThen (fun w => Tracer.plan u
        { empty with pointers := [flatPointer scope stride] } (w.set (scope ++ ".index") i))
          (Tracer.advance u []) w).2.flatMap Event.acts =
        [.point (flatPointer scope stride) (w.set (scope ++ ".index") i)] := by
      simp [empty, Tracer.andThen, Tracer.plan, Tracer.note, Tracer.loops, Tracer.done, Tracer.advance,
        Tracer.moves, Event.acts]
    rw [alone, List.forall_mem_singleton]
    refine hP (.point (flatPointer scope stride) (v.set (scope ++ ".index") i)) _ fun n hn => ?_
    simp [Act.values, Values.set, mem_mentions_flat hn]
  have inner_eq : (∀ a ∈ (ofFlatDynamicArray scope stride).inner u v, P a) ↔
      P (.count elementCount v) ∧
        ∀ i < u.number 0 32, P (.point (flatPointer scope stride) (v.set (scope ++ ".index") i)) := by
    have rounds := forall_acts_rounds round (u.number 0 32) 0 v
    simp only [Nat.zero_le, Nat.zero_add, forall_const] at rounds
    rw [← rounds]
    simp only [inner, ofFlatDynamicArray, Tracer.loops, Tracer.andThen, Tracer.note, Tracer.start,
      Tracer.done, count, List.append_nil, List.nil_append, List.cons_append, List.flatMap_cons,
      Event.acts, List.forall_mem_cons]
    rfl
  have level_eq (w : Values) : (∀ a ∈ (ofFlatDynamicArray scope stride).level w, P a) ↔
      P (.copy (lengthCopy scope) v) ∧ P (.copy (flatCopy scope stride) v) := by
    have first := hP (.copy (lengthCopy scope) v) w (by
      simp [lengthCopy, Act.mentions, Term.occurrences, Term.words, Term.ofNat])
    have second := hP (.copy (flatCopy scope stride) v) w (by
      intro n hn
      simp only [flatCopy, Act.mentions, occurrences_elementsEnd, Term.words, Term.ofNat,
        Term.occurrences, List.nil_append] at hn
      cases Term.of_mem_occurrences_scale hn)
    rw [← first, ← second]
    simp [level, ofFlatDynamicArray, empty, flatCopy, Act.at_]
  rw [acts, List.forall_mem_append, inner_eq, level_eq, and_assoc]

theorem read_index (scope : String) (w : Values) (i : Nat) (u : Wire) :
    (Term.var (scope ++ ".index")).read (w.set (scope ++ ".index") i) u = i := by
  simp [Term.read_var, Values.set]

theorem read_elementCount (v : Values) (u : Wire) : elementCount.read v u = u.number 0 32 := rfl

theorem read_elementsEnd (v : Values) (u : Wire) :
    elementsEnd.read v u = 32 + 32 * u.number 0 32 := by
  rw [elementsEnd, Term.read_add, Term.read_mul, read_elementCount, Term.words_eq, Term.read_ofNat,
    Term.read_literal, Term.top, show (32 : Int64).toInt = 32 from rfl]
  omega

theorem read_elementSlot (t : Term) (v : Values) (u : Wire) :
    (elementSlot t).read v u = 32 + 32 * t.read v u := by
  rw [elementSlot, Term.read_add, Term.read_mul, Term.words_eq, Term.read_ofNat, Term.read_literal,
    Term.top, show (32 : Int64).toInt = 32 from rfl]
  omega

theorem plain_elementCount : elementCount.Plain := .load (.literal (by simp))

theorem plain_elementsEnd : elementsEnd.Plain := (plain_elementCount.scale (by decide)).sum (.ofNat _)

theorem plain_elementSlot {t : Term} (h : t.Plain) : (elementSlot t).Plain :=
  (h.scale (by decide)).sum (.ofNat _)

theorem plain_scaled {t : Term} (h : t.Plain) (k : Nat) : (t * .ofNat k).Plain := by
  refine h.scale ?_
  have := toInt_saturated k
  rw [Term.top] at this
  omega

theorem ready_elementCount {v : Values} {u : Wire} {reach : Int} (low : 0 < reach)
    (small : u.number 0 32 < 2 ^ 63) : elementCount.Ready v u reach := by
  refine .load (.literal _) low ?_
  have : u.word ((Term.literal 0).read v u) = u.number 0 32 := rfl
  omega

theorem ready_elementsEnd {v : Values} {u : Wire} {reach : Int} (low : 0 < reach)
    (small : u.number 0 32 < 2 ^ 63) : elementsEnd.Ready v u reach :=
  (ready_elementCount low small).scale.add (.ofNat _)

theorem ready_elementSlot {t : Term} {v : Values} {u : Wire} {reach : Int} (h : t.Ready v u reach) :
    (elementSlot t).Ready v u reach := h.scale.add (.ofNat _)

theorem good_lengthCopy (scope : String) {v : Values} {u : Wire} (address : Int) (vs : List Value) :
    (Act.copy (lengthCopy scope) v).Good u address (block (ofWord (u.number 0 32)) address vs) := by
  have size := Term.read_word v u
  refine ⟨by simp [lengthCopy, Term.read_literal], ?_, ?_, ?_⟩
  · simp [lengthCopy, size]
  · rw [lengthCopy, size, Term.read_literal, length_block, length_ofWord]
    simp
    omega
  · have whole := Act.cut_middle [] (ofWord (u.number 0 32))
      (slots (address + ((ofWord (u.number 0 32)).length + 32 * vs.length)) vs ++
        bodies (address + ((ofWord (u.number 0 32)).length + 32 * vs.length)) vs)
      (Int.le_refl 0) (show (0 : Int) ≤ 32 by decide) (by rw [length_ofWord]; decide)
    rw [lengthCopy, size, Term.read_literal, Int64.toInt_zero, block]
    rw [List.nil_append, List.length_nil, Int.natCast_zero, Int.zero_add] at whole
    rw [whole, cut_all _ (by rw [length_ofWord]; rfl), Wire.drop_zero]
    exact Wire.matches_ofWord_number

theorem spares_lengthCopy {lengths : String → Prop} {scope : String} (named : lengths (scope ++ ".length"))
    (v : Values) (u : Wire) (firm : Int → Prop) : (Act.copy (lengthCopy scope) v).Spares lengths u firm :=
  fun loose => absurd named (loose.2 _ (List.mem_singleton.2 rfl))

theorem lengths_flatDynamicArray (scope : String) (stride : Nat) :
    (ofFlatDynamicArray scope stride).lengths (scope ++ ".length") :=
  ⟨scope, mem_bound.2 List.mem_cons_self, rfl⟩

theorem plain_flatDynamicArray (scope : String) (stride : Nat) :
    (ofFlatDynamicArray scope stride).Plain := by
  refine ⟨by simp [empty], ?_, ⟨plain_elementCount, by simp, ?_, trivial⟩, by simp [empty],
    plain_elementsEnd.sum (plain_scaled plain_elementCount _), ?_⟩
  · simp only [List.mem_cons, List.not_mem_nil, or_false, forall_eq_or_imp, forall_eq]
    exact ⟨⟨.literal (by simp), .literal (by simp), .ofNat _⟩,
      plain_elementsEnd, .ofNat _, plain_scaled plain_elementCount _⟩
  · refine ⟨?_, by simp [empty], trivial, by simp [empty], .literal (by simp), by simp [empty]⟩
    exact List.forall_mem_singleton.2 ⟨plain_elementSlot (.var _),
      plain_elementsEnd.sum (plain_scaled (.var _) _)⟩
  · rintro t ⟨⟩
    exact (plain_scaled plain_elementCount _).sum (.ofNat _)

theorem names_flatDynamicArray (scope : String) (stride : Nat) :
    (ofFlatDynamicArray scope stride).names = [] := by
  refine List.eq_nil_iff_forall_not_mem.2 fun n hn => ?_
  have none {k : Nat} (h : n ∈ (elementCount * .ofNat k).occurrences) : False := by
    simpa [elementCount, Term.occurrences] using Term.of_mem_occurrences_scale h
  simp only [ofFlatDynamicArray, names, level, empty, lengthCopy, Act.mentions, List.map_nil,
    List.map_cons, List.nil_append, List.append_nil, List.flatMap_cons, List.flatMap_nil,
    List.mem_append, Term.mem_occurrences_add, occurrences_elementsEnd, Term.words,
    Term.occurrences_ofNat, Term.occurrences, List.not_mem_nil, false_or, or_false, Option.map_some,
    Option.getD_some] at hn
  rcases hn with h | h | h
  · exact none h
  · exact none h
  · exact none h

/-- Flat elements behind their number, when no literal is cut off. -/
structure FlatList (u : Wire) (stride : Nat) (vs : List Value) : Prop where
  flat : ∀ x ∈ vs, x.Flat
  sizes : ∀ x ∈ vs, x.size = stride
  length : u.number 0 32 = vs.length
  found : (u.drop 32).Matches (heads (headSizes vs) vs ++ tails vs)
  small : vs.length ≠ 0 → (stride : Int) < Term.top

namespace FlatList
variable {u : Wire} {stride : Nat} {vs : List Value} {scope : String} {v : Values} {address : Int}

theorem of_fits (flat : p.Flat) (fits : (ofFlatDynamicArray scope p.headSize).Fits v u
      (.list (Part.tuple strict (List.replicate (u.number 0 32) p) (u.drop 32)))) :
    FlatList u p.headSize (Part.tuple strict (List.replicate (u.number 0 32) p) (u.drop 32)) := by
  obtain ⟨flats, sizes, length, found⟩ := @Part.Flat.tuple p strict flat (u.number 0 32) (u.drop 32)
  refine ⟨flats, sizes, length.symm, found, fun some => ?_⟩
  have bodies := (bodies_of_flat flats sizes 0 0).2.2.1
  rw [length] at some bodies
  simp only [Fits, forall_acts_flatList (Act.local_within u _), Value.size, bodies, length] at fits
  have times := Nat.le_mul_of_pos_left p.headSize (Nat.pos_of_ne_zero some)
  rcases fits with small | ⟨bound, low, _, _, _, within⟩
  · omega
  · simp only [Act.Within, flatCopy, read_elementsEnd, Term.read_mul, read_elementCount,
      Term.read_ofNat] at within
    have least : 1 * min (p.headSize : Int) Term.top ≤ u.number 0 32 * min (p.headSize : Int) Term.top :=
      Int.mul_le_mul_of_nonneg_right (by omega) (by rw [Term.top]; omega)
    omega

theorem size (l : FlatList u stride vs) : (list vs).size = 32 + (32 * vs.length + vs.length * stride) := by
  rw [Value.size, (bodies_of_flat l.flat l.sizes 0 0).2.2.1]

theorem extent (l : FlatList u stride vs) : (list vs).extent = 32 + vs.length * stride := by
  obtain ⟨_, tails, _, heads⟩ := bodies_of_flat l.flat l.sizes 0 0
  rw [Value.extent, extents_eq, heads, tails, Nat.add_zero]

theorem read_end (l : FlatList u stride vs) (w : Values) : elementsEnd.read w u = 32 + 32 * vs.length := by
  rw [read_elementsEnd, l.length]

theorem read_bodies (l : FlatList u stride vs) (w : Values) :
    (elementCount * .ofNat stride).read w u = vs.length * stride := by
  rw [Term.read_mul, read_elementCount, l.length, Term.read_stride l.small (Nat.le_refl _)]

theorem read_pointer (l : FlatList u stride vs) {i : Nat} (hi : i < vs.length) :
    (flatPointer scope stride).dst.read (v.set (scope ++ ".index") i) u = 32 + 32 * i ∧
      (flatPointer scope stride).value.read (v.set (scope ++ ".index") i) u =
        32 + 32 * vs.length + i * stride := by
  rw [flatPointer, read_elementSlot, Term.read_add, l.read_end, Term.read_mul, read_index,
    Term.read_stride l.small (Nat.le_of_lt hi)]
  exact ⟨rfl, rfl⟩

theorem good (l : FlatList u stride vs) :
    ∀ a ∈ (ofFlatDynamicArray scope stride).acts u v, a.Good u address ((list vs).image address) := by
  rw [image_list, forall_acts_flatList (Act.local_good _ _ _), l.length]
  refine ⟨trivial, fun i hi => ?_, ?_, ?_⟩
  · refine Act.good_point_flat l.flat l.sizes hi ?_ ?_
    · rw [(l.read_pointer hi).1, length_ofWord]
      rfl
    · rw [(l.read_pointer hi).2, length_ofWord]
      rfl
  · have good := @good_lengthCopy scope v u address vs
    rwa [l.length] at good
  · have found := l.found
    rw [Wire.matches_append] at found
    refine Act.good_copy_flat l.flat l.sizes ?_ (l.read_bodies v) ?_
    · rw [flatCopy, l.read_end, length_ofWord]
      rfl
    · rw [flatCopy, Term.read_word]
      exact found.1

theorem covers (l : FlatList u stride vs) {i : Nat} (hi : i < (list vs).size) :
    ∃ a ∈ (ofFlatDynamicArray scope stride).acts u v, a.Touches u i := by
  by_contra none
  obtain ⟨-, points, first, bodies⟩ := (forall_acts_flatList (Act.local_touches u i).not).1
    fun a ha touches => none ⟨a, ha, touches⟩
  simp only [Act.Touches, lengthCopy, Term.read_word, Term.read_literal, Int64.toInt_zero] at first
  simp only [Act.Touches, flatCopy, l.read_end, l.read_bodies] at bodies
  have inside : (i : Int) < 32 + (32 * vs.length + vs.length * stride) := by exact_mod_cast l.size ▸ hi
  rw [l.length] at points
  by_cases slot : 32 ≤ i ∧ i < 32 + 32 * vs.length
  · have missed := points ((i - 32) / 32) (by omega)
    simp only [Act.Touches, (l.read_pointer (show (i - 32) / 32 < vs.length by omega)).1] at missed
    omega
  · omega

theorem spares (l : FlatList u stride vs) : ∀ a ∈ (ofFlatDynamicArray scope stride).acts u v,
    a.Spares (ofFlatDynamicArray scope stride).lengths u (list vs).Firm := by
  rw [forall_acts_flatList (Act.local_spares _ _ _)]
  refine ⟨trivial, fun _ _ => trivial, spares_lengthCopy (lengths_flatDynamicArray _ _) _ _ _, ?_⟩
  intro _ place low _ firm
  rw [flatCopy, l.read_end] at low
  rw [Firm] at firm
  rcases firm with first | firm
  · omega
  · have := firmIn_flat l.flat firm
    omega

theorem ready_count (l : FlatList u stride vs) (small : (list vs).size < 2 ^ 63) (w : Values) :
    elementCount.Ready w u (list vs).extent := by
  have length := l.length
  have size := l.size
  have extent := l.extent
  exact ready_elementCount (by omega) (by omega)

theorem ready_end (l : FlatList u stride vs) (small : (list vs).size < 2 ^ 63) (w : Values) :
    elementsEnd.Ready w u (list vs).extent := (l.ready_count small w).scale.add (.ofNat _)

theorem ready (l : FlatList u stride vs) (small : (list vs).size < 2 ^ 63) :
    ∀ a ∈ (ofFlatDynamicArray scope stride).acts u v, a.Ready u (list vs).extent (list vs).size := by
  have size := l.size
  have extent := l.extent
  have index_ready (i : Nat) : (Term.var (scope ++ ".index")).Ready
      (v.set (scope ++ ".index") i) u (list vs).extent := .var (x := i) (by simp [Values.set]) (by omega)
  rw [forall_acts_flatList (Act.local_ready _ _ _), l.length]
  refine ⟨⟨plain_elementCount, l.ready_count small v, ?_⟩, fun i hi => ?_, ?_, ?_⟩
  · rw [read_elementCount, l.length]
    omega
  · refine ⟨⟨plain_elementSlot (.var _), plain_elementsEnd.sum (plain_scaled (.var _) _)⟩,
      ready_elementSlot (index_ready i), (l.ready_end small _).add (index_ready i).scale, ?_⟩
    have places : (i : Int) * stride ≤ vs.length * stride :=
      Int.mul_le_mul_of_nonneg_right (by omega) (by omega)
    rw [(l.read_pointer hi).2, size]
    push_cast
    omega
  · refine ⟨⟨.literal (by simp), .literal (by simp), .ofNat _⟩, .literal _, .literal _, .ofNat _, ?_⟩
    simp [lengthCopy, Term.read_literal]
  · refine ⟨⟨plain_elementsEnd, .ofNat _, plain_scaled plain_elementCount _⟩, l.ready_end small v,
      .ofNat _, (l.ready_count small v).scale, ?_⟩
    rw [flatCopy, Term.read_word, extent]
    push_cast
    omega

theorem decodes (l : FlatList u stride vs) :
    (ofFlatDynamicArray scope stride).Decodes strict v u address (list vs) where
  size := by
    show (elementsEnd + elementCount * .ofNat stride).read _ u = _
    rw [Term.read_add, l.read_end, l.read_bodies, l.size]
    push_cast
    omega
  extent := by
    rintro t ⟨⟩
    rw [Term.read_add, l.read_bodies, l.extent, Term.read_word]
    push_cast
    omega
  good := l.good
  covers _ := l.covers
  spares := l.spares
  agrees := by
    rw [forall_acts_flatList (Act.local_agrees _)]
    refine iff_of_true ⟨trivial, fun _ _ => trivial, trivial, trivial⟩ fun _ => ?_
    rw [cells, Wire.matches_append, length_ofWord, ← l.length]
    exact ⟨Wire.matches_ofWord_number, l.found⟩
  ready _ small := by
    refine ⟨l.ready small, (l.ready_end small _).add (l.ready_count small _).scale, ?_⟩
    rintro t ⟨⟩
    exact (l.ready_count small _).scale.add (.ofNat _)

end FlatList

theorem sound_flatList (scope : String) (flat : p.Flat) (dynamic : part.isDynamic = true)
    (value : ∀ u, part.decode u =
      .list (Part.tuple strict (List.replicate (u.number 0 32) p) (u.drop 32))) :
    (ofFlatDynamicArray scope p.headSize).Sound strict part where
  plain := plain_flatDynamicArray scope p.headSize
  closed := by simp [names_flatDynamicArray]
  measured := by simp [ofFlatDynamicArray]
  written bound _ copies _ := by
    have := copies (flatCopy scope p.headSize) (by simp [ofFlatDynamicArray, flatCopy])
    rw [ofFlatDynamicArray, Term.sample, Term.denote_add]
    exact this
  floor := by simp [dynamic]
  decodes v u address _ _ fits := by
    rw [value] at fits ⊢
    exact (FlatList.of_fits flat fits).decodes

end Plan
end Calldata

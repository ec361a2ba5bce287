import Calldata.Proofs.RoundTrip

/-!
Strict runs, with copies merged or not. They accept canonical calldata only, and where one ends well
the lenient run ends well too. Merging may spoil words that a strict run copies, but neither its
checks nor the sizes it reports, so all of this holds for merged copies; only the bytes of memory
need words to come first in records.
-/
namespace Calldata
open Cell Value

namespace Tree
variable {t : Tree} {m : Machine} {i : Image} {scope : String} {merge : Bool}

theorem run_of_planWith (plain : ∀ f ∈ t.fieldNames, PlainField f) (distinct : t.Distinct)
    (clean : merge = true → PlainScope scope) (small : (i.bytes.size : Int) < Term.top)
    (ran : m.run (t.planWith ⟨true, merge⟩ scope) 0 0 = .ok i) :
    ∃ bytes, m.run (t.plan true scope) 0 0 = .ok { i with bytes } ∧ bytes.size = i.bytes.size ∧
      ((merge && !t.wordsFirst) = false → bytes = i.bytes) := by
  cases merge with
  | false => exact ⟨i.bytes, ran, rfl, fun _ => rfl⟩
  | true =>
    exact Machine.run_of_merged_run (t.sound_plan true plain distinct scope).1
      (mergeable true plain distinct (clean rfl)) small ran

theorem strict_run_matches (plain : ∀ f ∈ t.fieldNames, PlainField f) (distinct : t.Distinct)
    (clean : merge = true → PlainScope scope) (small : (i.bytes.size : Int) < Term.top)
    (ran : m.run (t.planWith ⟨true, merge⟩ scope) 0 0 = .ok i) :
    m.wire.Matches (t.decode true m.wire).cells ∧ i.calldataSize = some (t.decode true m.wire).extent ∧
      i.size = (t.decode true m.wire).size ∧ (t.decode true m.wire).size ≤ i.bytes.size ∧
        ((merge && !t.wordsFirst) = false → i.body? t 0 = some (t.decode true m.wire).bare) := by
  obtain ⟨bytes, ran', size, same⟩ := run_of_planWith plain distinct clean small ran
  have sound := (t.sound_plan true plain distinct scope).1
  have small' : (bytes.size : Int) < Term.top := by omega
  obtain ⟨holds, canonical⟩ := Machine.run_at_zero (i := { i with bytes }) sound (.inr small') ran'
  have room : (t.decode true m.wire).size ≤ bytes.size := Machine.size_le_of_holds holds
  have sized : i.size = (t.decode true m.wire).size := holds.size
  refine ⟨(canonical rfl).1, (canonical rfl).2, sized, by omega, fun lossless => ?_⟩
  rw [same lossless] at holds
  refine holds.body? ?_
  unfold Term.top at small
  show 0 + i.size < UInt64.size
  simp only [UInt64.size]
  omega

theorem strict_run_of_matches (plain : ∀ f ∈ t.fieldNames, PlainField f) (distinct : t.Distinct)
    (clean : merge = true → PlainScope scope) (canonical : m.wire.Matches (t.decode true m.wire).cells)
    (room : (t.decode true m.wire).size ≤ m.limit) (small : ((t.decode true m.wire).size : Int) < Term.top) :
    ∃ j, m.run (t.planWith ⟨true, merge⟩ scope) 0 0 = .ok j ∧ (j.bytes.size : Int) < Term.top := by
  have sound := (t.sound_plan true plain distinct scope).1
  obtain ⟨i, ran⟩ := Machine.run_canonical_at_zero sound canonical room small
  have full := (Machine.run_at_zero sound (.inl small) ran).1.room
  obtain ⟨bytes, ran', size, _⟩ := @run_planWith t m i scope plain distinct ⟨true, merge⟩ clean (by omega) ran
  exact ⟨_, ran', show (bytes.size : Int) < _ by omega⟩

end Tree

section Built
variable {a : Arena} {root : NodeId} {scope : String}

/-- A strict decoder accepts canonical calldata only, with copies merged or not. Calldata agrees with
the encoding of a value of the type wherever the encoding is not filling, and the length of the
encoding is reported. The value is read back from memory if copies are not merged, or if words come
first in all records. -/
theorem strict_run_is_canonical (h : a.Decodable root) (plain : a.PlainFields root) (merge : Bool)
    (clean : merge = true → PlainScope scope) : ∃ t d, a.tree? root = some t ∧
      Decoder.ofRoot a { strict := true, merge } scope root = .ok d ∧
        ∀ (m : Machine) (i : Image), m.run d.plan 0 0 = .ok i → i.bytes.size < 2 ^ 63 - 1 →
          ∃ v, t.Holds v ∧ m.wire.Matches v.cells ∧ i.calldataSize = some v.encode.length ∧ i.size = v.size ∧
            ((merge && !t.wordsFirst) = false → i.body? t 0 = some v) := by
  obtain ⟨t, tree, distinct, build⟩ := h.build
  refine ⟨t, _, tree, build _ _, fun m i ran small => ?_⟩
  have top : (i.bytes.size : Int) < Term.top := by
    unfold Term.top
    omega
  obtain ⟨canonical, extent, size, _, read⟩ :=
    Tree.strict_run_matches (h.plain_tree plain tree) distinct clean top ran
  refine ⟨(t.decode true m.wire).bare, t.holds_decode true m.wire, ?_, ?_, ?_, read⟩
  · rwa [cells_bare]
  · rw [length_encode, extent_bare]
    exact extent
  · rw [size_bare]
    exact size

theorem strict_run_is_canonical_trade : ∃ t d i v, Arena.trade.tree? 6 = some t ∧
    Decoder.ofRoot Arena.trade { strict := true, merge := true } "trade" 6 = .ok d ∧
      canonicalTrade.run d.plan 0 0 = .ok i ∧ t.Holds v ∧ canonicalTrade.wire.Matches v.cells ∧
        i.calldataSize = some v.encode.length ∧ i.size = v.size ∧ i.body? t 0 = some v := by
  obtain ⟨t, d, tree, built, canonical⟩ := strict_run_is_canonical Arena.decodable_trade Arena.plainFields_trade
    true fun _ => plainScope_trade
  obtain ⟨i, ran, small⟩ := run_canonicalTrade built
  obtain ⟨v, holds, found, extent, size, read⟩ := canonical canonicalTrade i ran small
  have first := wordsFirst_trade tree
  exact ⟨t, d, i, v, tree, built, ran, holds, found, extent, size, read (by rw [first]; rfl)⟩

/-- A strict decoder with merged copies takes a parcel, and leaves a value that calldata does not encode. -/
theorem strict_parcel_not_encoded : ∃ t d i v, Arena.parcel.tree? 9 = some t ∧
    Decoder.ofRoot Arena.parcel { strict := true, merge := true } "parcel" 9 = .ok d ∧
      canonicalParcel.run d.plan 0 0 = .ok i ∧ i.body? t 0 = some v ∧ ¬ canonicalParcel.wire.Matches v.cells := by
  obtain ⟨t, tree, _, build⟩ := Arena.decodable_parcel.build
  obtain ⟨i, ran, _⟩ := run_canonicalParcel tree (build { strict := true, merge := true } "parcel")
  exact ⟨t, _, i, _, tree, build _ _, ran, body?_canonicalParcel tree (build _ _) ran, by decide +kernel⟩

/-- What a strict decoder accepts the lenient one accepts too, both with merged copies or both
without, and it leaves memory of the same size. The bytes are the same if copies are not merged, or if
words come first in all records. -/
theorem lenient_run_of_strict_run (h : a.Decodable root) (plain : a.PlainFields root) (merge : Bool)
    (clean : merge = true → PlainScope scope) : ∃ t d e, a.tree? root = some t ∧
      Decoder.ofRoot a { strict := true, merge } scope root = .ok d ∧
        Decoder.ofRoot a { strict := false, merge } scope root = .ok e ∧
          ∀ (m : Machine) (i : Image), m.run d.plan 0 0 = .ok i → i.bytes.size < 2 ^ 63 - 1 →
            ∃ j, m.run e.plan 0 0 = .ok j ∧ j.size = i.size ∧ j.bytes.size = i.bytes.size ∧
              ((merge && !t.wordsFirst) = false → j.bytes = i.bytes) := by
  obtain ⟨t, tree, distinct, build⟩ := h.build
  refine ⟨t, _, _, tree, build _ _, build _ _, fun m i ran small => ?_⟩
  have fields := h.plain_tree plain tree
  have top : (i.bytes.size : Int) < Term.top := by
    unfold Term.top
    omega
  -- the strict run without merged copies, then the lenient one, then its merged copies
  obtain ⟨bytes, ran', size, same⟩ := Tree.run_of_planWith fields distinct clean top ran
  have top' : (bytes.size : Int) < Term.top := by omega
  obtain ⟨j, lenient, equal, sized⟩ := Machine.run_lenient_of_strict (i := { i with bytes })
    (t.sound_plan true fields distinct scope).1 (t.sound_plan false fields distinct scope).1 top' ran'
  replace equal : j.bytes = bytes := equal
  obtain ⟨final, merged, _, kept⟩ := @Tree.run_planWith t m j scope fields distinct ⟨false, merge⟩ clean
    (by rw [equal]; omega) lenient
  have kept : final = bytes := (kept rfl).trans equal
  subst kept
  exact ⟨_, merged, sized, size, same⟩

theorem lenient_run_of_strict_run_trade : ∃ d e i j,
    Decoder.ofRoot Arena.trade { strict := true, merge := true } "trade" 6 = .ok d ∧
      Decoder.ofRoot Arena.trade { strict := false, merge := true } "trade" 6 = .ok e ∧
        canonicalTrade.run d.plan 0 0 = .ok i ∧ canonicalTrade.run e.plan 0 0 = .ok j ∧ j.size = i.size ∧
          j.bytes = i.bytes := by
  obtain ⟨t, d, e, tree, strict, lenient, refines⟩ := lenient_run_of_strict_run Arena.decodable_trade
    Arena.plainFields_trade true fun _ => plainScope_trade
  obtain ⟨i, ran, small⟩ := run_canonicalTrade strict
  obtain ⟨j, ran', size, _, same⟩ := refines canonicalTrade i ran small
  have first := wordsFirst_trade tree
  exact ⟨d, e, i, j, strict, lenient, ran, ran', size, same (by rw [first]; rfl)⟩

/-- With merged copies a strict decoder leaves other bytes than the lenient one. -/
theorem strict_parcel_differs : ∃ d e i j,
    Decoder.ofRoot Arena.parcel { strict := true, merge := true } "parcel" 9 = .ok d ∧
      Decoder.ofRoot Arena.parcel { strict := false, merge := true } "parcel" 9 = .ok e ∧
        canonicalParcel.run d.plan 0 0 = .ok i ∧ canonicalParcel.run e.plan 0 0 = .ok j ∧ i.bytes ≠ j.bytes := by
  obtain ⟨t, tree, _, build⟩ := Arena.decodable_parcel.build
  obtain ⟨i, ran, _⟩ := run_canonicalParcel tree (build { strict := true, merge := true } "parcel")
  obtain ⟨j, ran', read⟩ := run_canonicalParcel tree (build { strict := false, merge := true } "parcel")
  exact ⟨_, _, i, j, build _ _, build _ _, ran, ran',
    bytes_ne_of_labels (body?_canonicalParcel tree (build _ _) ran) (read rfl)⟩

end Built

end Calldata

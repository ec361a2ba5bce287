import Calldata.Proofs.MergedRun

/-!
What built decoders do, with copies merged or not. A lenient decoder finds on every calldata what
the plain recursive decoder finds. Merging stops no run; it changes nothing in what a lenient decoder
leaves, and in what a strict one leaves only where a word of a record comes after a larger member. On
calldata that contains the canonical encoding of a value every decoder runs, and with that exception
leaves an image that is read back as the value.

Sizes in a plan stop at the largest word, so images as large as that are left out: a size in them may
be cut off. No run under a lower memory limit leaves one (`Machine.run_bytes_le`); the default limit
is far below.
-/
namespace Calldata
open Cell Value

/-- A scope whose continuations can be told apart in the text of a polynomial. -/
structure PlainScope (scope : String) : Prop where
  blank : ' ' ∉ scope.toList
  star : '*' ∉ scope.toList
  balanced : AtomText.Balanced scope.toList

theorem PlainScope.plainName {scope n : String} (h : PlainScope scope) (beneath : Beneath scope n) :
    PlainName n := by
  obtain ⟨w, eq, ⟨mark, rest, rfl, _⟩, clean⟩ := beneath
  have parens : ∀ c ∈ mark :: rest, c ≠ '(' ∧ c ≠ ')' := by
    intro c hc
    have := clean c hc
    simp only [List.mem_cons, List.not_mem_nil, or_false, not_or] at this
    exact ⟨this.2.2.1, this.2.2.2⟩
  constructor
  · rw [eq, List.mem_append, not_or]
    exact ⟨h.blank, fun hc => clean ' ' hc (by simp)⟩
  · rw [eq, List.mem_append, not_or]
    exact ⟨h.star, fun hc => clean '*' hc (by simp)⟩
  · rw [eq, AtomText.balanced_append h.balanced]
    exact AtomText.nest_of_no_parens parens 0
  · rw [eq, List.getLast?_append_of_ne_nil _ (List.cons_ne_nil mark rest)]
    intro last
    exact (parens ')' (List.mem_of_getLast? last)).2 rfl

theorem Tree.mergeable_plan {lengths : String → Prop} (strict : Bool) (t : Tree)
    (plain : ∀ f ∈ t.fieldNames, PlainField f) (distinct : t.Distinct) {scope : String}
    (clean : PlainScope scope) (named : ∀ s ∈ t.scopes scope, ¬ lengths s ∧ ¬ lengths (s ++ "[*]")) :
    (t.plan strict scope).Mergeable (strict && !t.wordsFirst) lengths where
  plain := (t.fit_plan strict scope).plain
  rising := t.rising_plan strict scope
  leveled := (t.arranged_plan strict (by cases strict <;> simp) plain distinct scope named).leveled
  closed := (t.fit_plan strict scope).closed
  names n hn := clean.plainName ((t.sound_plan strict plain distinct scope).2 n hn)

theorem Wire.matches_of_encode {b : ByteArray} {v : Value} {front back : List UInt8}
    (content : b.data.toList = front ++ v.encode ++ back) :
    ((Wire.ofBytes b).drop front.length).Matches v.cells := by
  intro k byte cell
  have encoded : v.encode[k]? = some byte := by
    rw [encode, List.getElem?_map, cell]
    rfl
  have there : b.data.toList[front.length + k]? = some byte := by
    have inside := (List.getElem?_eq_some_iff.1 encoded).1
    rw [content, List.append_assoc, List.getElem?_append_right (Nat.le_add_right _ _),
      Nat.add_sub_cancel_left, List.getElem?_append_left inside, encoded]
  rw [Wire.drop, ← Int.natCast_add, Wire.ofBytes_natCast, ← Array.getElem?_toList, there]
  rfl

namespace Tree
variable {t : Tree} {m : Machine} {i : Image} {scope : String}

theorem mergeable (strict : Bool) (plain : ∀ f ∈ t.fieldNames, PlainField f) (distinct : t.Distinct)
    (clean : PlainScope scope) :
    (t.plan strict scope).Mergeable (strict && !t.wordsFirst) fun _ => False :=
  t.mergeable_plan strict plain distinct clean fun _ _ => ⟨id, id⟩

theorem lenient_run_holds (plain : ∀ f ∈ t.fieldNames, PlainField f) (distinct : t.Distinct) {merge : Bool}
    (clean : merge = true → PlainScope scope) (small : (i.bytes.size : Int) < Term.top)
    (ran : m.run (t.planWith ⟨false, merge⟩ scope) 0 0 = .ok i) : i.Holds 0 (t.decode false m.wire) := by
  have sound := (t.sound_plan false plain distinct scope).1
  cases merge with
  | false => exact (Machine.run_at_zero sound (.inr small) ran).1
  | true =>
    have holds := Machine.merged_run_holds sound (mergeable false plain distinct (clean rfl)) (by simp) (by simp)
      small ran
    simpa [part] using holds

theorem run_planWith (plain : ∀ f ∈ t.fieldNames, PlainField f) (distinct : t.Distinct) {options : Options}
    (clean : options.merge = true → PlainScope scope) (small : (i.bytes.size : Int) < Term.top)
    (ran : m.run (t.plan options.strict scope) 0 0 = .ok i) :
    ∃ bytes, m.run (t.planWith options scope) 0 0 = .ok { i with bytes } ∧ bytes.size = i.bytes.size ∧
      ((options.strict && options.merge && !t.wordsFirst) = false → bytes = i.bytes) := by
  unfold planWith
  cases merge : options.merge with
  | false => exact ⟨i.bytes, ran, rfl, fun _ => rfl⟩
  | true =>
    rw [Bool.and_true]
    exact Machine.run_merged_at_zero (mergeable options.strict plain distinct (clean merge)) small ran

/-- The decoders of a tree run on every encoding of its values, at any place in calldata. -/
theorem run_of_encode (plain : ∀ f ∈ t.fieldNames, PlainField f) (distinct : t.Distinct)
    (clean : PlainScope scope) {options : Options} {v : Value} {front back : List UInt8}
    {calldataBase memoryBase : Int64} (holds : t.Holds v)
    (content : m.calldata.data.toList = front ++ v.encode ++ back)
    (place : calldataBase.toInt = front.length) (offset0 : 0 ≤ memoryBase.toInt)
    (reach : front.length + v.encode.length < 2 ^ 63) (limit : m.limit < 2 ^ 63)
    (room : memoryBase.toInt + v.size ≤ m.limit) :
    ∃ i, m.run (t.planWith options scope) calldataBase memoryBase = .ok i ∧ i.size = v.size ∧
      (options.strict = true → i.calldataSize = some v.encode.length) ∧
        ((options.strict && options.merge && !t.wordsFirst) = false →
          i.body? t memoryBase.toInt.toNat = some v) := by
  have sound := (t.sound_plan options.strict plain distinct scope).1
  -- the decoder finds the value
  have canonical : (m.wire.drop calldataBase.toInt).Matches v.cells := by
    rw [place]
    exact Wire.matches_of_encode content
  have found : (t.decode options.strict (m.wire.drop calldataBase.toInt)).bare = v :=
    Tree.decode_of_matches holds (by omega) canonical
  have size : (t.decode options.strict (m.wire.drop calldataBase.toInt)).size = v.size := by
    rw [← size_bare, found]
  have extent : (t.decode options.strict (m.wire.drop calldataBase.toInt)).extent = v.encode.length := by
    rw [← extent_bare, found, length_encode]
  have cells : (m.wire.drop calldataBase.toInt).Matches
      (t.decode options.strict (m.wire.drop calldataBase.toInt)).cells := by
    rw [← cells_bare, found]
    exact canonical
  have start0 : 0 ≤ calldataBase.toInt := by omega
  obtain ⟨i, bytes, ran, merged, same⟩ := Machine.run_merged_of_canonical sound
    (mergeable options.strict plain distinct clean) start0 offset0 cells
    (show _ + ((t.decode _ _).extent : Int) < _ by omega)
    (show _ + ((t.decode _ _).size : Int) ≤ _ by omega) (show _ + ((t.decode _ _).size : Int) < _ by omega)
  have small : ((t.decode options.strict (m.wire.drop calldataBase.toInt)).size : Int) < Term.top := by
    have := (t.decode options.strict (m.wire.drop calldataBase.toInt)).dvd_size
    unfold Term.top
    omega
  obtain ⟨held, measured⟩ := Machine.run_holds sound start0 offset0 (.inl small) ran
  replace held : i.Holds memoryBase.toInt.toNat (t.decode options.strict (m.wire.drop calldataBase.toInt)) := held
  have sized : i.size = v.size := held.size.trans size
  have extents (strict : options.strict = true) : i.calldataSize = some v.encode.length := by
    rw [← extent]
    exact (measured strict).2
  have read : i.body? t memoryBase.toInt.toNat = some v := by
    rw [← found]
    refine held.body? ?_
    simp only [UInt64.size]
    omega
  unfold planWith
  cases merge : options.merge with
  | false => exact ⟨i, ran, sized, extents, fun _ => read⟩
  | true =>
    refine ⟨_, merged, sized, extents, fun lossless => ?_⟩
    rw [same (by simpa using lossless)]
    exact read

end Tree

theorem plainScope_order : PlainScope "order" := ⟨by decide, by decide, by decide⟩

theorem plainScope_trade : PlainScope "trade" := ⟨by decide, by decide, by decide⟩

theorem plainScope_parcel : PlainScope "parcel" := ⟨by decide, by decide, by decide⟩

def Machine.ofWords (words : List UInt8) (limit : Nat) : Machine :=
  ⟨⟨(words.flatMap fun b => List.replicate 31 0 ++ [b]).toArray⟩, limit⟩

theorem wordsFirst_trade {t : Tree} (tree : Arena.trade.tree? 6 = some t) : t.wordsFirst = true := by
  cases tree.symm.trans Arena.tree_trade
  decide

/-- Two legs of a trade that share their place in calldata. -/
def overlappingTrade : Machine := .ofWords [32, 2, 64, 64, 9, 8, 96, 0] 4096

theorem run_overlappingTrade {merge : Bool} {d : Decoder}
    (built : Decoder.ofRoot Arena.trade { strict := false, merge } "trade" 6 = .ok d) :
    ∃ i, overlappingTrade.run d.plan 0 0 = .ok i ∧ i.bytes.size < 2 ^ 63 - 1 := by
  obtain ⟨t, tree, distinct, build⟩ := Arena.decodable_trade.build
  have fields := Arena.decodable_trade.plain_tree Arena.plainFields_trade tree
  have ran : ((Decoder.ofRoot Arena.trade { strict := false, merge := false } "trade" 6).toOption.bind
      fun d => (overlappingTrade.run d.plan 0 0).toOption).isSome := by
    decide +kernel
  rw [build] at ran
  obtain ⟨i, unmerged⟩ : ∃ i, overlappingTrade.run (t.plan false "trade") 0 0 = .ok i :=
    exists_ok_of_isSome ran
  have limit : i.bytes.size ≤ 4096 := Machine.run_bytes_le unmerged
  obtain ⟨bytes, merged, size, _⟩ := @Tree.run_planWith t overlappingTrade i "trade" fields distinct
    { strict := false, merge } (fun _ => plainScope_trade) (by unfold Term.top; omega) unmerged
  cases built.symm.trans (build _ _)
  exact ⟨_, merged, show bytes.size < _ by omega⟩

/-- The decoders of a type run on the encodings of its values. -/
theorem Arena.Decodable.exists_run {a : Arena} {root : NodeId} {scope : String} {options : Options} {d : Decoder}
    {t : Tree} {v : Value} {m : Machine} (h : a.Decodable root) (plain : a.PlainFields root)
    (clean : PlainScope scope) (built : Decoder.ofRoot a options scope root = .ok d)
    (tree : a.tree? root = some t) (holds : t.Holds v) (content : m.calldata.data.toList = v.encode)
    (reach : v.encode.length < 2 ^ 63) (limit : m.limit < 2 ^ 62) (room : v.size ≤ m.limit) :
    ∃ i, m.run d.plan 0 0 = .ok i ∧ i.bytes.size < 2 ^ 63 - 1 ∧
      ((options.strict && options.merge && !t.wordsFirst) = false → i.body? t 0 = some v) := by
  obtain ⟨t', tree', distinct, build⟩ := h.build
  cases tree.symm.trans tree'
  cases built.symm.trans (build _ _)
  obtain ⟨i, ran, _, _, read⟩ := @Tree.run_of_encode t m scope (h.plain_tree plain tree) distinct clean options v
    [] [] 0 0 holds (by rw [content]; simp) rfl (by decide) (by simpa using reach) (by omega)
    (show (0 : Int) + _ ≤ _ by omega)
  have bound : i.bytes.size ≤ m.limit := Machine.run_bytes_le ran
  exact ⟨i, ran, by omega, read⟩

/-- Two legs of a trade, one of them without amounts. -/
def twoLegs : Value :=
  .tuple [.list [.tuple [.word 9, .word 8, .list [.word 1]], .tuple [.word 3, .word 4, .list []]]]

def canonicalTrade : Machine := ⟨⟨twoLegs.encode.toArray⟩, 4096⟩

theorem run_canonicalTrade {options : Options} {d : Decoder}
    (built : Decoder.ofRoot Arena.trade options "trade" 6 = .ok d) :
    ∃ i, canonicalTrade.run d.plan 0 0 = .ok i ∧ i.bytes.size < 2 ^ 63 - 1 := by
  have length : twoLegs.encode.length = 416 := by rw [length_encode]; rfl
  obtain ⟨i, ran, small, _⟩ := Arena.decodable_trade.exists_run Arena.plainFields_trade plainScope_trade built
    Arena.tree_trade (v := twoLegs) (m := canonicalTrade) (by simp [twoLegs, Tree.Holds, Tree.HoldsEach]) rfl
    (by omega) (by decide) (by decide)
  exact ⟨i, ran, small⟩

def parcelLabelled (n : Nat) : Value :=
  .tuple [.tuple [.word n], .tuple [.bytes [] unknown, .bytes [] unknown, .word 3], .word 2,
    .tuple [.word 4, .word 5]]

def canonicalParcel : Machine := ⟨⟨(parcelLabelled 1).encode.toArray⟩, 4096⟩

theorem holds_parcelLabelled {t : Tree} {n : Nat} (tree : Arena.parcel.tree? 9 = some t) (small : n < 256 ^ 32) :
    t.Holds (parcelLabelled n) := by
  cases tree.symm.trans Arena.tree_parcel
  simpa [parcelLabelled, Tree.Holds, Tree.HoldsEach] using small

theorem run_canonicalParcel {options : Options} {t : Tree} {d : Decoder} (tree : Arena.parcel.tree? 9 = some t)
    (built : Decoder.ofRoot Arena.parcel options "parcel" 9 = .ok d) :
    ∃ i, canonicalParcel.run d.plan 0 0 = .ok i ∧
      ((options.strict && options.merge) = false → i.body? t 0 = some (parcelLabelled 1)) := by
  have length : (parcelLabelled 1).encode.length = 320 := by rw [length_encode]; rfl
  obtain ⟨i, ran, _, read⟩ := Arena.decodable_parcel.exists_run Arena.plainFields_parcel plainScope_parcel built
    tree (m := canonicalParcel) (holds_parcelLabelled tree (by decide)) rfl (by omega) (by decide) (by decide)
  exact ⟨i, ran, fun lossless => read (by rw [lossless]; rfl)⟩

/-- The weight and the tag become one copy. Between the two lies the label in memory and the second
side in calldata, and the label is copied first: so the second side is read back for it. -/
theorem body?_canonicalParcel {t : Tree} {d : Decoder} {i : Image} (tree : Arena.parcel.tree? 9 = some t)
    (built : Decoder.ofRoot Arena.parcel { strict := true, merge := true } "parcel" 9 = .ok d)
    (ran : canonicalParcel.run d.plan 0 0 = .ok i) : i.body? t 0 = some (parcelLabelled 5) := by
  have traced : (Decoder.ofRoot Arena.parcel { strict := true, merge := true } "parcel" 9).toOption.all fun d =>
      decide ((canonicalParcel.after (Tracer.plan canonicalParcel.wire (Machine.placed d.plan 0 0) .unset).2
        (Memory.ofBytes .empty)).wire.Matches ((parcelLabelled 5).image 0)) := by
    decide +kernel
  rw [built] at traced
  have left : i.wire = _ := congrArg Memory.wire (Machine.run_ok_iff.1 ran).2.1
  refine Image.body?_of_matches (holds_parcelLabelled tree (by decide)) (by decide) ?_
  rw [Int.natCast_zero, Wire.drop_zero, left]
  exact of_decide_eq_true traced

theorem bytes_ne_of_labels {t : Tree} {i j : Image} (five : j.body? t 0 = some (parcelLabelled 5))
    (one : i.body? t 0 = some (parcelLabelled 1)) : j.bytes ≠ i.bytes := by
  intro same
  rw [Image.body?_congr same, one] at five
  simp [parcelLabelled] at five

section Built
variable {a : Arena} {root : NodeId} {scope : String}

/-- On every calldata that a lenient decoder takes, the value read back from memory is the one that
the plain recursive decoder finds. -/
theorem lenient_run_follows_wire (h : a.Decodable root) (plain : a.PlainFields root) (clean : PlainScope scope)
    (merge : Bool) : ∃ t d, a.tree? root = some t ∧
      Decoder.ofRoot a { strict := false, merge } scope root = .ok d ∧
        ∀ (m : Machine) (i : Image), m.run d.plan 0 0 = .ok i → i.bytes.size < 2 ^ 63 - 1 →
          i.body? t 0 = some (t.decode false m.wire).bare := by
  obtain ⟨t, tree, distinct, build⟩ := h.build
  refine ⟨t, _, tree, build _ _, fun m i ran small => ?_⟩
  have top : (i.bytes.size : Int) < Term.top := by
    unfold Term.top
    omega
  have holds := Tree.lenient_run_holds (h.plain_tree plain tree) distinct (fun _ => clean) top ran
  have room := Machine.size_le_of_holds holds
  refine holds.body? ?_
  rw [holds.size]
  simp only [UInt64.size]
  omega

theorem lenient_run_follows_wire_overlapping : ∃ t d i, Arena.trade.tree? 6 = some t ∧
    Decoder.ofRoot Arena.trade { strict := false, merge := true } "trade" 6 = .ok d ∧
      overlappingTrade.run d.plan 0 0 = .ok i ∧ i.body? t 0 = some (t.decode false overlappingTrade.wire).bare := by
  obtain ⟨t, d, tree, built, follows⟩ :=
    lenient_run_follows_wire Arena.decodable_trade Arena.plainFields_trade plainScope_trade true
  obtain ⟨i, ran, small⟩ := run_overlappingTrade built
  exact ⟨t, d, i, tree, built, ran, follows overlappingTrade i ran small⟩

/-- Where a decoder runs without merged copies, it runs with them and finds the same sizes. A lenient
one leaves the same image, and so does a strict one if words come first in all records. -/
theorem merged_run_of_run (h : a.Decodable root) (plain : a.PlainFields root) (clean : PlainScope scope)
    (strict : Bool) : ∃ t d e, a.tree? root = some t ∧
      Decoder.ofRoot a { strict, merge := false } scope root = .ok d ∧
        Decoder.ofRoot a { strict, merge := true } scope root = .ok e ∧
          ∀ (m : Machine) (i : Image), m.run d.plan 0 0 = .ok i → i.bytes.size < 2 ^ 63 - 1 →
            ∃ j, m.run e.plan 0 0 = .ok j ∧ j.size = i.size ∧ j.calldataSize = i.calldataSize ∧
              j.bytes.size = i.bytes.size ∧ ((strict && !t.wordsFirst) = false → j = i) := by
  obtain ⟨t, tree, distinct, build⟩ := h.build
  refine ⟨t, _, _, tree, build _ _, build _ _, fun m i ran small => ?_⟩
  have top : (i.bytes.size : Int) < Term.top := by
    unfold Term.top
    omega
  have mergeable := Tree.mergeable strict (h.plain_tree plain tree) distinct clean
  obtain ⟨bytes, ran', size, same⟩ := Machine.run_merged_at_zero mergeable top ran
  refine ⟨_, ran', rfl, rfl, size, fun lossless => ?_⟩
  rw [same lossless]

theorem merged_run_of_run_trade :
    (∃ d e i, Decoder.ofRoot Arena.trade { strict := false, merge := false } "trade" 6 = .ok d ∧
      Decoder.ofRoot Arena.trade { strict := false, merge := true } "trade" 6 = .ok e ∧
        overlappingTrade.run d.plan 0 0 = .ok i ∧ overlappingTrade.run e.plan 0 0 = .ok i) ∧
    ∃ d e i, Decoder.ofRoot Arena.trade { strict := true, merge := false } "trade" 6 = .ok d ∧
      Decoder.ofRoot Arena.trade { strict := true, merge := true } "trade" 6 = .ok e ∧
        d.plan.loops.map (·.body.copies.length) = [3] ∧ e.plan.loops.map (·.body.copies.length) = [1] ∧
          canonicalTrade.run d.plan 0 0 = .ok i ∧ canonicalTrade.run e.plan 0 0 = .ok i := by
  have merges := merged_run_of_run Arena.decodable_trade Arena.plainFields_trade plainScope_trade
  constructor
  · obtain ⟨t, d, e, _, built, built', each⟩ := merges false
    obtain ⟨i, ran, small⟩ := run_overlappingTrade built
    obtain ⟨j, ran', _, _, _, same⟩ := each overlappingTrade i ran small
    exact ⟨d, e, i, built, built', ran, same rfl ▸ ran'⟩
  · obtain ⟨t, d, e, tree, built, built', each⟩ := merges true
    obtain ⟨i, ran, small⟩ := run_canonicalTrade built
    obtain ⟨j, ran', _, _, _, same⟩ := each canonicalTrade i ran small
    have first := wordsFirst_trade tree
    have lengths (merge : Bool) (d : Decoder)
        (built : Decoder.ofRoot Arena.trade { strict := true, merge } "trade" 6 = .ok d) :
        d.plan.loops.map (·.body.copies.length) = if merge then [1] else [3] := by
      have found : (Decoder.ofRoot Arena.trade { strict := true, merge } "trade" 6).toOption.map
          (fun d => d.plan.loops.map (·.body.copies.length)) = some (if merge then [1] else [3]) := by
        cases merge <;> decide +kernel
      rw [built] at found
      exact Option.some.inj found
    exact ⟨d, e, i, built, built', lengths _ d built, lengths _ e built', ran, same (by rw [first]; rfl) ▸ ran'⟩

/-- A strict decoder leaves other bytes when copies are merged. -/
theorem merged_parcel_overwritten : ∃ d e i j,
    Decoder.ofRoot Arena.parcel { strict := true, merge := false } "parcel" 9 = .ok d ∧
      Decoder.ofRoot Arena.parcel { strict := true, merge := true } "parcel" 9 = .ok e ∧
        canonicalParcel.run d.plan 0 0 = .ok i ∧ canonicalParcel.run e.plan 0 0 = .ok j ∧ j.bytes ≠ i.bytes := by
  obtain ⟨t, tree, _, build⟩ := Arena.decodable_parcel.build
  obtain ⟨i, ran, read⟩ := run_canonicalParcel tree (build { strict := true, merge := false } "parcel")
  obtain ⟨j, ran', _⟩ := run_canonicalParcel tree (build { strict := true, merge := true } "parcel")
  exact ⟨_, _, i, j, build _ _, build _ _, ran, ran',
    bytes_ne_of_labels (body?_canonicalParcel tree (build _ _) ran') (read rfl)⟩

/-- On calldata that contains the canonical encoding of a value every decoder runs at that place and
finds the sizes of the value. The value is read back from the memory that is left, except where a
strict decoder has merged copies and a word of a record comes after a larger member. -/
theorem canonical_run_round_trip (h : a.Decodable root) (plain : a.PlainFields root)
    (clean : PlainScope scope) (options : Options) : ∃ t d, a.tree? root = some t ∧
      Decoder.ofRoot a options scope root = .ok d ∧
        ∀ (v : Value) (front back : List UInt8) (m : Machine) (calldataBase memoryBase : Int64), t.Holds v →
          m.calldata.data.toList = front ++ v.encode ++ back → calldataBase.toInt = front.length →
          0 ≤ memoryBase.toInt → front.length + v.encode.length < 2 ^ 63 → m.limit < 2 ^ 63 →
          memoryBase.toInt + v.size ≤ m.limit →
            ∃ i, m.run d.plan calldataBase memoryBase = .ok i ∧ i.size = v.size ∧
              (options.strict = true → i.calldataSize = some v.encode.length) ∧
              ((options.strict && options.merge && !t.wordsFirst) = false →
                i.body? t memoryBase.toInt.toNat = some v) := by
  obtain ⟨t, tree, distinct, build⟩ := h.build
  refine ⟨t, _, tree, build _ _, ?_⟩
  intro v front back m calldataBase memoryBase holds content place offset0 reach limit room
  exact Tree.run_of_encode (h.plain_tree plain tree) distinct clean holds content place offset0 reach limit room

def notedOrder : Value :=
  .tuple [.word 5, .bytes [1, 2, 3] unknown, .list [.tuple [.word 7, .list [.word 1, .word 2]]]]

theorem canonical_run_round_trip_order : ∃ t d i, Arena.order.tree? 7 = some t ∧
    Decoder.ofRoot Arena.order { strict := true, merge := true } "order" 7 = .ok d ∧
      (⟨⟨([1, 2, 3, 4] ++ notedOrder.encode ++ [9]).toArray⟩, 4096⟩ : Machine).run d.plan 4 64 = .ok i ∧
        i.size = notedOrder.size ∧ i.calldataSize = some notedOrder.encode.length ∧
          i.body? t 64 = some notedOrder := by
  obtain ⟨t, d, tree, built, trip⟩ := canonical_run_round_trip Arena.decodable_order Arena.plainFields_order
    plainScope_order { strict := true, merge := true }
  have holds : t.Holds notedOrder := by
    cases tree.symm.trans Arena.tree_order
    simp [notedOrder, Tree.Holds, Tree.HoldsEach]
  have length : notedOrder.encode.length = 384 := by rw [length_encode]; rfl
  have size : notedOrder.size = 384 := rfl
  obtain ⟨i, ran, sized, measured, read⟩ := trip notedOrder [1, 2, 3, 4] [9] ⟨⟨_⟩, 4096⟩ 4 64 holds rfl rfl
    (by decide) (by rw [length]; decide) (by decide) (by rw [size]; decide)
  have first : t.wordsFirst = true := by
    cases tree.symm.trans Arena.tree_order
    decide
  exact ⟨t, d, i, tree, built, ran, sized, measured rfl, read (by rw [first]; rfl)⟩

/-- The canonical encoding of a parcel labelled 1 is read back as that of one labelled 5. -/
theorem canonical_parcel_relabelled : ∃ t d i, Arena.parcel.tree? 9 = some t ∧ t.Holds (parcelLabelled 1) ∧
    Decoder.ofRoot Arena.parcel { strict := true, merge := true } "parcel" 9 = .ok d ∧
      (⟨⟨(parcelLabelled 1).encode.toArray⟩, 4096⟩ : Machine).run d.plan 0 0 = .ok i ∧
        i.body? t 0 = some (parcelLabelled 5) ∧ i.body? t 0 ≠ some (parcelLabelled 1) := by
  obtain ⟨t, tree, _, build⟩ := Arena.decodable_parcel.build
  obtain ⟨i, ran, _⟩ := run_canonicalParcel tree (build { strict := true, merge := true } "parcel")
  have read := body?_canonicalParcel tree (build _ _) ran
  refine ⟨t, _, i, tree, holds_parcelLabelled tree (by decide), build _ _, ran, read, ?_⟩
  rw [read]
  simp [parcelLabelled]

end Built

end Calldata

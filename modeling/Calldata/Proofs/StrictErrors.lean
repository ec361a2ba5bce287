import Calldata.Proofs.LoneOffsets

/-!
The errors of strict decoders. Where a lenient decoder takes its calldata, the strict one of the same
type takes it exactly if it is canonical. Otherwise it refuses, and says which checks failed, unless
some tuple of the type has two dynamic members: then the check of the second one may depend on what
stands at the canonical place of the first one, and where that does not fit in memory the run may
stop at it before a check is reported.
-/
namespace Calldata
open Cell Value

theorem Plan.quiet_ofMembers {strict dynamic : Bool} {memoryHead calldataHead : Term} {ms : List (String × Part × Plan)}
    (quiet : ∀ m ∈ ms, m.2.1.isDynamic = false ∧ m.2.2.Quiet) :
    (ofMembers strict dynamic memoryHead calldataHead (seats 0 0 ms)).Quiet := by
  obtain ⟨checks, loops, _⟩ := @Draft.foldl_quiet strict ms quiet 0 0 ⟨empty, memoryHead, some calldataHead⟩
  exact ⟨checks, loops⟩

namespace Tree
variable {t : Tree} {fields : List (String × Tree)}

mutual

/-- At most one dynamic member in every tuple. -/
def lone : Tree → Bool
  | .word | .bytes => true
  | .fixed n _ t => !t.isDynamic || (n == 1 && t.lone)
  | .dynamic t => t.lone
  | .record fields => loneIn fields

def loneIn : List (String × Tree) → Bool
  | [] => true
  | (_, t) :: rest => if t.isDynamic then t.lone && !anyDynamic rest else loneIn rest

end

/-- The one dynamic field of a record stands between static ones. -/
theorem exists_dynamic_field (lone : loneIn fields = true) (dynamic : anyDynamic fields = true) :
    ∃ before f after, fields = before ++ f :: after ∧ f.2.isDynamic = true ∧ f.2.lone = true ∧
      (∀ g ∈ before, g.2.isDynamic = false) ∧ ∀ g ∈ after, g.2.isDynamic = false := by
  induction fields with
  | nil => cases dynamic
  | cons f rest ih =>
    rw [loneIn] at lone
    cases first : f.2.isDynamic with
    | true =>
      rw [first, if_pos rfl, Bool.and_eq_true, Bool.not_eq_true'] at lone
      exact ⟨[], f, rest, rfl, first, lone.1, by simp, fun g hg => static_of_mem lone.2 hg⟩
    | false =>
      rw [first, if_neg Bool.false_ne_true] at lone
      rw [anyDynamic, first, Bool.false_or] at dynamic
      obtain ⟨before, g, after, rfl, isDynamic, isLone, left, right⟩ := ih lone dynamic
      exact ⟨f :: before, g, after, rfl, isDynamic, isLone, List.forall_mem_cons.2 ⟨first, left⟩, right⟩

theorem parts_congr (same : ∀ f ∈ fields, f.2.decode true = f.2.decode false) :
    parts true fields = parts false fields := by
  rw [parts_eq, parts_eq]
  exact List.map_congr_left fun f hf => congrArg (Part.mk _ _ _) (same f hf)

theorem decode_of_static (static : t.isDynamic = false) : t.decode true = t.decode false := by
  induction t using Tree.induction with
  | word => rfl
  | bytes => cases static
  | dynamic t ih => cases static
  | fixed n positive t ih =>
    have same : t.part true = t.part false := congrArg (Part.mk _ _ _) (ih static)
    funext u
    rw [decode_fixed, decode_fixed, same]
    exact congrArg _ (Part.walk_static (fun p hp => List.eq_of_mem_replicate hp ▸ static) u _ _ _ _ _)
  | record fields ih =>
    have still (f : String × Tree) (hf : f ∈ fields) : f.2.isDynamic = false := static_of_mem static hf
    funext u
    rw [decode_record, decode_record, parts_congr fun f hf => ih f hf (still f hf), parts_eq]
    exact congrArg _ (Part.walk_static (List.forall_mem_map.2 still) u _ _ _ _ _)

theorem quiet_plan (static : t.isDynamic = false) (scope : String) : (t.plan true scope).Quiet := by
  induction t using Tree.induction generalizing scope with
  | word => exact ⟨rfl, rfl⟩
  | bytes => cases static
  | dynamic t ih => cases static
  | fixed n positive t ih =>
    unfold plan
    split
    · exact ⟨rfl, rfl⟩
    · split
      · exact ⟨rfl, rfl⟩
      · exact Plan.quiet_ofMembers (List.forall_mem_map.2 fun i _ => ⟨static, ih static _⟩)
  | record fields ih =>
    have still (f : String × Tree) (hf : f ∈ fields) : f.2.isDynamic = false := static_of_mem static hf
    unfold plan
    split
    · exact ⟨rfl, rfl⟩
    · rw [fieldPlans_eq]
      exact Plan.quiet_ofMembers (List.forall_mem_map.2 fun f hf => ⟨still f hf, ih f hf (still f hf) _⟩)

theorem lone_plan_of_static (plain : ∀ f ∈ t.fieldNames, PlainField f) (distinct : t.Distinct)
    (static : t.isDynamic = false) (scope : String) : (t.plan true scope).Lone (t.decode true) (t.decode false) := by
  rw [← decode_of_static static]
  exact Plan.lone_of_unchecked (t.sound_plan true plain distinct scope).1 (quiet_plan static scope).1

theorem lone_fixed {positive : 0 < 1} (plain : ∀ f ∈ t.fieldNames, PlainField f) (distinct : t.Distinct)
    (isDynamic : t.isDynamic = true) (ih : ∀ scope, (t.plan true scope).Lone (t.decode true) (t.decode false))
    (scope : String) : ((fixed 1 positive t).plan true scope).Lone ((fixed 1 positive t).decode true)
      ((fixed 1 positive t).decode false) := by
  have body : ¬t.isWord = true := fun isWord => by
    rw [eq_word isWord] at isDynamic
    cases isDynamic
  have spread : ¬t.isFlat = true := fun flat => by
    rw [static_of_isFlat flat] at isDynamic
    cases isDynamic
  have seat : Plan.LoneSeat [] [] s!"{scope}[{0}]" (t.part true) (t.part false) (t.plan true s!"{scope}[{0}]") := {
    seated := @seated_elements true t scope 1 body (t.sound_plan true plain distinct)
    quietBefore := by simp
    quietAfter := by simp
    isDynamic, regular := regular_part false t, isDynamic' := isDynamic, lone := ih _ }
  have lone := seat.lone_ofMembers
  rw [plan, if_neg body, if_neg spread, isDynamic]
  have heads : Part.headSizes (Plan.around [] [] (t.part true)) = 1 * t.headSize := by
    simp [Plan.around, Part.headSizes, part]
  rw [heads] at lone
  exact lone

theorem lone_dynamic (plain : ∀ f ∈ t.fieldNames, PlainField f) (distinct : t.Distinct)
    (ih : ∀ scope, (t.plan true scope).Lone (t.decode true) (t.decode false)) (scope : String) :
    ((dynamic t).plan true scope).Lone ((dynamic t).decode true) ((dynamic t).decode false) := by
  obtain ⟨sound, beneath⟩ := t.sound_plan true plain distinct (scope ++ "[]")
  cases isDynamic : t.isDynamic with
  | false =>
    have same : (dynamic t).decode true = (dynamic t).decode false := by
      funext u
      rw [decode_dynamic, decode_dynamic, part, decode_of_static isDynamic, ← part]
      exact congrArg _ (Part.walk_static (fun p hp => List.eq_of_mem_replicate hp ▸ isDynamic) _ _ _ _ _ _)
    rw [← same]
    refine Plan.lone_of_unchecked ((dynamic t).sound_plan true plain distinct scope).1 ?_
    unfold plan
    split
    · rfl
    · split
      · rfl
      · rw [isDynamic]
        rfl
  | true =>
    have body : ¬t.isWord = true := fun isWord => by
      rw [eq_word isWord] at isDynamic
      cases isDynamic
    have spread : ¬t.isFlat = true := fun flat => by
      rw [static_of_isFlat flat] at isDynamic
      cases isDynamic
    obtain ⟨start, checks, cursors, starts, steps, eq⟩ :=
      @Plan.ofDynamicArray_eq true t.isDynamic t.headSize scope _ sound.measured
    have loop : Plan.ElementLoop true (t.part true) (t.plan true (scope ++ "[]")) scope start checks cursors := {
      starts, cursors := steps, sound, regular := regular_part true t
      isBody := Bool.eq_false_iff.2 body
      apart := fun n hn there => not_inside_own hn (beneath n there).inside }
    have lone := loop.lone_overElements (ih _) isDynamic (regular_part false t) isDynamic
    rw [plan, if_neg body, if_neg spread, eq, Option.getD_some]
    exact lone

theorem lone_record {before after : List (String × Tree)} {f : String × Tree}
    (plain : ∀ g ∈ (record (before ++ f :: after)).fieldNames, PlainField g)
    (distinct : (record (before ++ f :: after)).Distinct) (isDynamic : f.2.isDynamic = true)
    (static : ∀ g ∈ before, g.2.isDynamic = false) (static' : ∀ g ∈ after, g.2.isDynamic = false)
    (ih : ∀ scope, (f.2.plan true scope).Lone (f.2.decode true) (f.2.decode false)) (scope : String) :
    ((record (before ++ f :: after)).plan true scope).Lone ((record (before ++ f :: after)).decode true)
      ((record (before ++ f :: after)).decode false) := by
  have each (g : String × Tree) (hg : g ∈ before ++ f :: after) (scope : String) :=
    g.2.sound_plan true (fun n hn => plain n (mem_namesOf.2 ⟨g, hg, .inr hn⟩)) (distinctEach_iff.1 distinct.2 g hg) scope
  have seated : Plan.Seated true (fieldPlans true scope (before ++ f :: after)) :=
    seated_fields (fun g hg => plain _ (mem_namesOf.2 ⟨g, hg, .inl rfl⟩)) distinct.1 each
  have words : ¬(before ++ f :: after).all (·.2.isWord) = true := by
    intro all
    rw [eq_word (List.all_eq_true.1 all f (by simp))] at isDynamic
    cases isDynamic
  have any : anyDynamic (before ++ f :: after) = true := by
    rw [anyDynamic_eq, List.any_eq_true]
    exact ⟨f, by simp, isDynamic⟩
  have seat : Plan.LoneSeat (fieldPlans true scope before) (fieldPlans true scope after) (scope ++ "." ++ f.1)
      (f.2.part true) (f.2.part false) (f.2.plan true (scope ++ "." ++ f.1)) := {
    seated := by
      simpa [fieldPlans_eq] using seated
    quietBefore := by
      rw [fieldPlans_eq, List.forall_mem_map]
      exact fun g hg => ⟨static g hg, quiet_plan (static g hg) _⟩
    quietAfter := by
      rw [fieldPlans_eq, List.forall_mem_map]
      exact fun g hg => ⟨static' g hg, quiet_plan (static' g hg) _⟩
    isDynamic, regular := regular_part false f.2, isDynamic' := isDynamic, lone := ih _ }
  have parts_around (strict : Bool) : parts strict (before ++ f :: after) =
      parts strict before ++ f.2.part strict :: parts strict after := by
    simp [parts_eq]
  have strict_parts : Plan.around (fieldPlans true scope before) (fieldPlans true scope after) (f.2.part true) =
      parts true (before ++ f :: after) := by
    rw [Plan.around, fieldPlans_parts, fieldPlans_parts, parts_around]
  have lenient_parts : Plan.around (fieldPlans true scope before) (fieldPlans true scope after) (f.2.part false) =
      parts false (before ++ f :: after) := by
    rw [Plan.around, fieldPlans_parts, fieldPlans_parts, parts_around,
      parts_congr fun g hg => decode_of_static (static g hg), parts_congr fun g hg => decode_of_static (static' g hg)]
  have lone := seat.lone_ofMembers
  rw [strict_parts, lenient_parts, headSizes_parts] at lone
  rw [plan, if_neg words, any]
  have joined : fieldPlans true scope (before ++ f :: after) = fieldPlans true scope before ++
      (scope ++ "." ++ f.1, f.2.part true, f.2.plan true (scope ++ "." ++ f.1)) :: fieldPlans true scope after := by
    simp [fieldPlans_eq]
  have length : (parts true (before ++ f :: after)).length = (before ++ f :: after).length := by simp [parts_eq]
  rw [length] at lone
  rw [joined]
  exact lone

/-- The plan of a type with at most one dynamic member in every tuple. -/
theorem lone_plan (t : Tree) (lone : t.lone = true) (plain : ∀ f ∈ t.fieldNames, PlainField f) (distinct : t.Distinct)
    (scope : String) : (t.plan true scope).Lone (t.decode true) (t.decode false) := by
  induction t using Tree.induction generalizing scope with
  | word => exact lone_plan_of_static plain distinct rfl scope
  | bytes => exact Plan.lone_of_unchecked (sound_plan true bytes plain distinct scope).1 rfl
  | fixed n positive t ih =>
    cases isDynamic : t.isDynamic with
    | false => exact lone_plan_of_static plain distinct isDynamic scope
    | true =>
      rw [Tree.lone, isDynamic, Bool.not_true, Bool.false_or, Bool.and_eq_true, beq_iff_eq] at lone
      obtain ⟨rfl, inner⟩ := lone
      exact lone_fixed (t := t) plain distinct isDynamic (ih inner plain distinct) scope
  | dynamic t ih => exact lone_dynamic (t := t) plain distinct (ih lone plain distinct) scope
  | record fields ih =>
    cases isDynamic : anyDynamic fields with
    | false => exact lone_plan_of_static plain distinct isDynamic scope
    | true =>
      obtain ⟨before, f, after, rfl, dynamic, inner, static, static'⟩ := exists_dynamic_field lone isDynamic
      have there : f ∈ before ++ f :: after := by simp
      exact lone_record plain distinct dynamic static static' (ih f there inner
        (fun g hg => plain g (mem_namesOf.2 ⟨f, there, .inr hg⟩)) (distinctEach_iff.1 distinct.2 f there)) scope

theorem refuses_of_lone {m : Machine} {scope : String} {merge : Bool} {error : RunError}
    (lone : t.lone = true) (plain : ∀ f ∈ t.fieldNames, PlainField f) (distinct : t.Distinct)
    (clean : merge = true → PlainScope scope) (fits : (t.decode false m.wire).size ≤ m.limit)
    (low : ((t.decode false m.wire).size : Int) < Term.top)
    (failed : m.run (t.planWith ⟨true, merge⟩ scope) 0 0 = .error error) : error.Refuses := by
  have guarded := (t.lone_plan lone plain distinct scope).guarded (t.sound_plan true plain distinct scope).1
    Values.nonneg_unset low
  have extent := (t.decode false m.wire).extent_le_size
  have top : ((t.decode false m.wire).extent : Int) < 2 ^ 63 := by
    unfold Term.top at low
    omega
  exact refuses_of_guarded plain distinct clean top fits low guarded failed

/-- How a strict run fails where the value that the offset words lead to fits. -/
theorem strict_run_error {m : Machine} {scope : String} {merge : Bool} {error : RunError}
    (plain : ∀ f ∈ t.fieldNames, PlainField f) (distinct : t.Distinct)
    (clean : merge = true → PlainScope scope) (fits : (t.decode false m.wire).size ≤ m.limit)
    (low : ((t.decode false m.wire).size : Int) < Term.top)
    (failed : m.run (t.planWith ⟨true, merge⟩ scope) 0 0 = .error error) :
    error.Refuses ∨ error.isExcess = true ∧ t.lone = false ∧
      (m.limit < (t.decode true m.wire).size ∨ 2 ^ 63 - 1 ≤ (t.decode true m.wire).size) := by
  have fit : (t.planWith ⟨true, merge⟩ scope).Fit true := by
    unfold planWith
    cases merge with
    | false => exact t.fit_plan true scope
    | true => exact (t.fit_plan true scope).merged
  have sane : Sane true (m.run (t.planWith ⟨true, merge⟩ scope) 0 0) fun _ => True :=
    m.sane_run fit (by decide) (by decide)
  rw [failed] at sane
  by_cases refused : error.Refuses
  · exact .inl refused
  · refine .inr ⟨?_, ?_, ?_⟩
    · exact sane.resolve_right fun both => refused (Machine.run_refuses_of_isRefusal failed both.2)
    · exact Bool.eq_false_iff.2 fun lone => refused (refuses_of_lone lone plain distinct clean fits low failed)
    · by_contra within
      refine refused (refuses_of_fits plain distinct clean (by omega) ?_ failed)
      unfold Term.top
      omega

end Tree

section Built
variable {a : Arena} {root : NodeId} {scope : String}

/-- Of what a lenient decoder takes, the strict one takes what is canonical, both with merged copies or
both without. If it fails it refuses, with the names of the checks that failed. It can only fail in
another way, with something too large, if some tuple of the type has two dynamic members and the value
at the canonical places does not fit in memory. -/
theorem strict_run_of_lenient_run (h : a.Decodable root) (plain : a.PlainFields root) (merge : Bool)
    (clean : merge = true → PlainScope scope) : ∃ t d e, a.tree? root = some t ∧
      Decoder.ofRoot a { strict := false, merge } scope root = .ok d ∧
        Decoder.ofRoot a { strict := true, merge } scope root = .ok e ∧
          ∀ (m : Machine) (i : Image), m.run d.plan 0 0 = .ok i → i.bytes.size < 2 ^ 63 - 1 →
            ((∃ j, m.run e.plan 0 0 = .ok j ∧ j.bytes.size < 2 ^ 63 - 1) ↔
              m.wire.Matches (t.decode false m.wire).cells) ∧
            ∀ error, m.run e.plan 0 0 = .error error →
              (∃ names, names ≠ [] ∧ error = .invalidEncoding names) ∨
                error.isExcess = true ∧ t.lone = false ∧
                  (m.limit < (t.decode true m.wire).size ∨ 2 ^ 63 - 1 ≤ (t.decode true m.wire).size) := by
  obtain ⟨t, tree, distinct, build⟩ := h.build
  refine ⟨t, _, _, tree, build _ _, build _ _, fun m i ran small => ?_⟩
  have fields := h.plain_tree plain tree
  have top : (i.bytes.size : Int) < Term.top := by
    unfold Term.top
    omega
  have room := Machine.size_le_of_holds (Tree.lenient_run_holds fields distinct clean top ran)
  have limit := Machine.run_bytes_le ran
  have low : ((t.decode false m.wire).size : Int) < Term.top := by omega
  refine ⟨⟨fun accepted => ?_, fun canonical => ?_⟩, fun error failed => ?_⟩
  · obtain ⟨j, ran, small⟩ := accepted
    obtain ⟨canonical, _, _, room, _⟩ := Tree.strict_run_matches fields distinct clean (by unfold Term.top; omega) ran
    have same : t.decode false m.wire = t.decode true m.wire :=
      t.confirms_part.decode m.wire (show (t.decode true m.wire).size < 256 ^ 32 by omega) canonical
    rwa [same]
  · have same : (t.decode true m.wire).bare = (t.decode false m.wire).bare :=
      Tree.decode_of_matches (t.holds_decode false m.wire) (by rw [size_bare]; omega) (by rwa [cells_bare])
    have size : (t.decode true m.wire).size = (t.decode false m.wire).size := by
      rw [← size_bare, same, size_bare]
    have there : m.wire.Matches (t.decode true m.wire).cells := by
      rwa [← cells_bare, same, cells_bare]
    obtain ⟨j, ran, small⟩ := Tree.strict_run_of_matches fields distinct clean there (by omega) (by omega)
    exact ⟨j, ran, by unfold Term.top at small; omega⟩
  · exact Tree.strict_run_error fields distinct clean (by omega) low failed

theorem strict_run_of_lenient_run_overlapping : ∃ d e i names,
    Decoder.ofRoot Arena.trade { strict := false, merge := true } "trade" 6 = .ok d ∧
      Decoder.ofRoot Arena.trade { strict := true, merge := true } "trade" 6 = .ok e ∧
        overlappingTrade.run d.plan 0 0 = .ok i ∧ overlappingTrade.run e.plan 0 0 = .error (.invalidEncoding names) ∧
          names ≠ [] := by
  obtain ⟨t, d, e, tree, lenient, strict, accepts⟩ := strict_run_of_lenient_run Arena.decodable_trade
    Arena.plainFields_trade true fun _ => plainScope_trade
  obtain ⟨i, ran, small⟩ := run_overlappingTrade lenient
  obtain ⟨canonical, errors⟩ := accepts overlappingTrade i ran small
  have lone : t.lone = true := by
    cases tree.symm.trans Arena.tree_trade
    decide
  -- the second leg is not behind the first one
  have aliased : ¬overlappingTrade.wire.Matches (t.decode false overlappingTrade.wire).cells := by
    cases tree.symm.trans Arena.tree_trade
    decide +kernel
  cases ended : overlappingTrade.run e.plan 0 0 with
  | ok j =>
    have limit : j.bytes.size ≤ 4096 := Machine.run_bytes_le ended
    exact absurd (canonical.1 ⟨j, ended, by omega⟩) aliased
  | error error =>
    rcases errors error ended with ⟨names, some, rfl⟩ | ⟨_, twice, _⟩
    · exact ⟨d, e, i, names, lenient, strict, ran, ended, some⟩
    · rw [lone] at twice
      cases twice

def Arena.notes : Arena :=
  (Resolver.empty.resolveParams "p" [⟨"a", .elementary ⟨.bytes, none⟩⟩, ⟨"b", .elementary ⟨.bytes, none⟩⟩]).2.arena

theorem Arena.decodable_notes : Arena.notes.Decodable 2 where
  resolved := ⟨_, .resolveParams .empty _ _, rfl⟩
  found := by decide
  functionFree := by decide

/-- Two empty notes at one place, and junk at the canonical place of the first one. -/
def junkedNotes : Machine :=
  ⟨⟨(List.replicate 31 0 ++ [128] ++ (List.replicate 31 0 ++ [128]) ++ List.replicate 32 (255 : UInt8) ++
    List.replicate 64 0).toArray⟩, 2 ^ 24⟩

/-- The lenient decoder finds two empty notes. The strict one does not refuse them: it reads the length of
the first one at its canonical place to know where the second one should be. -/
theorem strict_run_reads_junk : ∃ d e i,
    Decoder.ofRoot Arena.notes { strict := false, merge := false } "p" 2 = .ok d ∧
      Decoder.ofRoot Arena.notes { strict := true, merge := false } "p" 2 = .ok e ∧
        junkedNotes.run d.plan 0 0 = .ok i ∧ junkedNotes.run e.plan 0 0 = .error (.wordOverflow 64) := by
  obtain ⟨t, _, _, build⟩ := Arena.decodable_notes.build
  have lenient : ((Decoder.ofRoot Arena.notes { strict := false, merge := false } "p" 2).toOption.bind
      fun d => (junkedNotes.run d.plan 0 0).toOption).isSome := by
    decide +kernel
  have strict : (Decoder.ofRoot Arena.notes { strict := true, merge := false } "p" 2).toOption.map
      (fun e => (junkedNotes.run e.plan 0 0).map fun _ => ()) = some (.error (.wordOverflow 64)) := by
    decide +kernel
  rw [build] at lenient strict
  obtain ⟨i, ran⟩ := exists_ok_of_isSome lenient
  exact ⟨_, _, i, build _ _, build _ _, ran, error_of_map (Option.some.inj strict)⟩

end Built

end Calldata

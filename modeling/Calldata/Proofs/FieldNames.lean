import Calldata.Proofs.AtomText
import Calldata.Proofs.Parameters
import Calldata.Proofs.TypeGrammar

/-!
The names of the fields that parameters become. A parameter without a name is called by its position, and
nothing keeps another one from having been given just that name. Fields differ in their names exactly if
this does not happen, and then they are never refused for a repeated name.
-/
namespace Calldata

namespace Ty

mutual

def NamesDistinct : Ty → Prop
  | .array element _ => element.NamesDistinct
  | .record fields => (fields.map Field.name).Nodup ∧ NamesDistinctEach fields
  | .elementary _ | .enumeration _ | .function | .reference _ => True

def NamesDistinctEach : List Field → Prop
  | [] => True
  | ⟨_, type⟩ :: rest => type.NamesDistinct ∧ NamesDistinctEach rest

end

mutual

theorem Valid.namesDistinct : (t : Ty) → t.Valid → t.NamesDistinct
  | .array element _, valid => Valid.namesDistinct element valid.2
  | .record fields, valid => ⟨valid.1, ValidEach.namesDistinct fields valid.2⟩
  | .elementary _, _ | .enumeration _, _ | .function, _ | .reference _, _ => trivial

theorem ValidEach.namesDistinct : (fields : List Field) → ValidEach fields → NamesDistinctEach fields
  | [], _ => trivial
  | ⟨_, type⟩ :: rest, valid =>
    ⟨Valid.namesDistinct type valid.1, ValidEach.namesDistinct rest valid.2⟩

end

end Ty

namespace Interning
variable {expand : String → String → Interning NodeId}

-- Without references every error comes from the description itself, and only fields are ever repeated.
mutual

theorem internWith_not_duplicate (owner : String) (shown : Option String) : (t : Ty) → t.references = [] →
    t.NamesDistinct → ∀ a later who field,
      (internWith expand owner shown t).run.run a ≠ (.error (.duplicateField who field), later)
  | .elementary type, _, _ => by
    intro a later who field h
    rw [internWith] at h
    split at h <;> cases h
  | .enumeration variants, _, _ => by
    intro a later who field h
    rw [internWith] at h
    split at h
    · cases h
    · split at h <;> cases h
  | .array element length, closed, distinct => by
    intro a later who field h
    rw [internWith] at h
    split at h
    · cases h
    · rcases run_bind_error h with ⟨b, inner⟩ | ⟨child, b, _, h⟩
      · exact internWith_not_duplicate owner none element closed distinct a b who field inner
      · rcases run_bind_error h with ⟨_, h⟩ | ⟨_, _, _, h⟩ <;> cases h
  | .record fields, closed, distinct => by
    intro a later who field h
    rw [internWith] at h
    rcases run_bind_error h with ⟨b, inner⟩ | ⟨_, _, _, h⟩
    · exact internFields_not_duplicate owner [] fields closed distinct.1 (by simp) distinct.2 a b who field inner
    · cases h
  | .function, _, _ => by
    intro a later who field h
    rw [internWith] at h
    cases h
  | .reference name, closed, _ => by
    cases closed

theorem internFields_not_duplicate (owner : String) (seen : List String) : (fields : List Field) →
    Ty.referencesOfFields fields = [] → (fields.map Field.name).Nodup → (∀ f ∈ fields, f.name ∉ seen) →
    Ty.NamesDistinctEach fields → ∀ a later who field,
      (internFields expand owner seen fields).run.run a ≠ (.error (.duplicateField who field), later)
  | [], _, _, _, _ => by
    intro a later who field h
    rw [internFields] at h
    cases h
  | ⟨name, type⟩ :: rest, closed, once, unseen, distinct => by
    intro a later who field h
    obtain ⟨closed, closed_rest⟩ := List.append_eq_nil_iff.1 closed
    obtain ⟨new, once⟩ := List.nodup_cons.1 once
    have unseen_rest : ∀ f ∈ rest, f.name ∉ name :: seen := by
      intro f hf
      rw [List.mem_cons, not_or]
      exact ⟨fun same => new (List.mem_map.2 ⟨f, hf, same⟩), unseen f (List.mem_cons_of_mem _ hf)⟩
    rw [internFields, if_neg (unseen ⟨name, type⟩ List.mem_cons_self)] at h
    rcases run_bind_error h with ⟨b, inner⟩ | ⟨child, b, _, h⟩
    · exact internWith_not_duplicate owner none type closed distinct.1 a b who field inner
    · rcases run_bind_error h with ⟨c, tail⟩ | ⟨_, _, _, h⟩
      · exact internFields_not_duplicate owner (name :: seen) rest closed_rest once unseen_rest distinct.2 b c who
          field tail
      · cases h

end

end Interning

namespace Interface

def IsTuple (type : String) : Prop := (splitBase (Text.trim type.toList)).1 = "tuple".toList

instance : DecidablePred IsTuple := fun type =>
  inferInstanceAs (Decidable ((splitBase (Text.trim type.toList)).1 = "tuple".toList))

mutual

/-- The components of every tuple in a parameter have the property. -/
def Param.Within (P : List Param → Prop) : Param → Prop
  | ⟨_, type, components⟩ => IsTuple type → P components ∧ WithinEach P components

def WithinEach (P : List Param → Prop) : List Param → Prop
  | [] => True
  | p :: rest => p.Within P ∧ WithinEach P rest

end

mutual

instance Param.decidableWithin (P : List Param → Prop) [DecidablePred P] : (p : Param) → Decidable (p.Within P)
  | ⟨_, type, components⟩ =>
    have := decidableWithinEach P components
    inferInstanceAs (Decidable (IsTuple type → P components ∧ WithinEach P components))

instance decidableWithinEach (P : List Param → Prop) [DecidablePred P] : (params : List Param) →
    Decidable (WithinEach P params)
  | [] => inferInstanceAs (Decidable True)
  | p :: rest =>
    have := Param.decidableWithin P p
    have := decidableWithinEach P rest
    inferInstanceAs (Decidable (p.Within P ∧ WithinEach P rest))

end

def Throughout (P : List Param → Prop) (params : List Param) : Prop := P params ∧ WithinEach P params

instance (P : List Param → Prop) [DecidablePred P] : DecidablePred (Throughout P) := fun params =>
  inferInstanceAs (Decidable (P params ∧ WithinEach P params))

def GivenDistinct (params : List Param) : Prop :=
  params.Pairwise fun p q => p.name ≠ "" → p.name ≠ q.name

instance : DecidablePred GivenDistinct := fun params =>
  inferInstanceAs (Decidable (params.Pairwise fun p q => p.name ≠ "" → p.name ≠ q.name))

/-- What an unnamed parameter is called was given to none. -/
def PositionsFree (params : List Param) : Prop :=
  ∀ (i : Nat) (inside : i < params.length), params[i].name = "" → ∀ p ∈ params, p.name ≠ "_" ++ toString i

instance : DecidablePred PositionsFree := fun params =>
  inferInstanceAs (Decidable
    (∀ (i : Nat) (inside : i < params.length), params[i].name = "" → ∀ p ∈ params, p.name ≠ "_" ++ toString i))

section
variable {signed : Bool} {params : List Param} {fields : List Field} {cs base rest : List Char} {body ty : Ty}

theorem fieldName_of_empty {name : String} {i : Nat} (h : name = "") : fieldName name i = "_" ++ toString i :=
  if_pos h

theorem fieldName_of_ne {name : String} {i : Nat} (h : name ≠ "") : fieldName name i = name :=
  if_neg h

theorem position_inj {i j : Nat} (h : "_" ++ toString i = "_" ++ toString j) : i = j :=
  AtomText.natural_inj ((String.append_right_inj "_").1 h)

/-- If the given names differ, all do so exactly if no position was given for a name. -/
theorem nodup_fieldNames_iff (given : GivenDistinct params) :
    (params.mapIdx fun i p => fieldName p.name i).Nodup ↔ PositionsFree params := by
  rw [List.Nodup, List.pairwise_iff_getElem]
  simp only [List.length_mapIdx, List.getElem_mapIdx]
  constructor
  · intro distinct i inside unnamed p hp called
    obtain ⟨j, there, rfl⟩ := List.getElem_of_mem hp
    have named : params[j].name ≠ "" := by simp [called]
    have same : fieldName params[i].name i = fieldName params[j].name j := by
      rw [fieldName_of_empty unnamed, fieldName_of_ne named, called]
    rcases Nat.lt_trichotomy i j with before | rfl | after
    · exact distinct i j inside there before same
    · exact named unnamed
    · exact distinct j i there inside after same.symm
  · intro free i j inside there before same
    by_cases unnamed : params[i].name = ""
    · rw [fieldName_of_empty unnamed] at same
      by_cases other : params[j].name = ""
      · rw [fieldName_of_empty other] at same
        exact Nat.ne_of_lt before (position_inj same)
      · rw [fieldName_of_ne other] at same
        exact free i inside unnamed _ (List.getElem_mem there) same.symm
    · rw [fieldName_of_ne unnamed] at same
      by_cases other : params[j].name = ""
      · rw [fieldName_of_empty other] at same
        exact free j there other _ (List.getElem_mem inside) same
      · rw [fieldName_of_ne other] at same
        exact List.pairwise_iff_getElem.1 given i j inside there before unnamed same

theorem Members.names : (params : List Param) → ∀ {position : Nat} {fields : List Field},
    Members signed position params fields →
      fields.map Field.name = params.mapIdx fun i p => fieldName p.name (position + i)
  | [], _, _, h => by
    cases h
    rfl
  | p :: rest, position, _, h => by
    cases h with
    | cons _ members =>
      rw [List.map_cons, List.mapIdx_cons, Members.names rest members]
      simp only [Nat.add_zero, Nat.add_assoc, Nat.add_comm 1]

theorem Suffixed.namesDistinct_iff (h : Suffixed signed body cs ty) : ty.NamesDistinct ↔ body.NamesDistinct := by
  induction h with
  | done => exact Iff.rfl
  | next _ _ ih => exact ih

theorem Suffixed.references_eq (h : Suffixed signed body cs ty) : ty.references = body.references := by
  induction h with
  | done => rfl
  | next _ _ ih => exact ih

theorem Base.exists_elementary (h : Base signed base body) : body = .function ∨ ∃ e, body = .elementary e := by
  cases h with
  | word mem =>
    simp only [words, List.mem_cons, Prod.mk.injEq, List.not_mem_nil, or_false] at mem
    rcases mem with ⟨_, rfl⟩ | ⟨_, rfl⟩ | ⟨_, rfl⟩ | ⟨_, rfl⟩ | ⟨_, rfl⟩ | ⟨_, rfl⟩ | ⟨_, rfl⟩
    case inr.inr.inr.inr.inl => exact .inl rfl
    all_goals exact .inr ⟨_, rfl⟩
  | integer _ _ _ => exact .inr ⟨_, rfl⟩
  | fixedBytes _ _ => exact .inr ⟨_, rfl⟩

theorem isTuple_of_trim {type : String} (text : Text.trim type.toList = "tuple".toList ++ rest) (opens : Opens rest) :
    IsTuple type := by
  rw [IsTuple, text, splitBase_append (by decide) opens]

theorem not_isTuple_of_trim {type : String} (text : Text.trim type.toList = base ++ rest) (based : Base true base body)
    (opens : Opens rest) : ¬ IsTuple type := by
  rw [IsTuple, text, splitBase_append based.shut opens]
  exact base_ne_tuple based

mutual

theorem Spelled.references : (p : Param) → ∀ {ty : Ty}, Spelled signed p ty → ty.references = []
  | ⟨name, type, components⟩, ty, h => by
    cases h with
    | elementary _ based suffixed =>
      rw [suffixed.references_eq]
      rcases based.exists_elementary with rfl | ⟨e, rfl⟩ <;> rfl
    | tuple _ members suffixed =>
      rw [suffixed.references_eq]
      exact Members.references components members

theorem Members.references : (params : List Param) → ∀ {position : Nat} {fields : List Field},
    Members signed position params fields → Ty.referencesOfFields fields = []
  | [], _, _, h => by
    cases h
    rfl
  | p :: rest, _, _, h => by
    cases h with
    | cons spelled members =>
      rw [Ty.referencesOfFields, Spelled.references _ spelled, Members.references rest members, List.nil_append]

end

mutual

theorem Spelled.namesDistinct_iff : (p : Param) → ∀ {ty : Ty}, Spelled true p ty → p.Within GivenDistinct →
    (ty.NamesDistinct ↔ p.Within PositionsFree)
  | ⟨name, type, components⟩, ty, h, given => by
    cases h with
    | elementary text based suffixed =>
      have plain := not_isTuple_of_trim text based suffixed.opens
      rw [suffixed.namesDistinct_iff, Param.Within]
      rcases based.exists_elementary with rfl | ⟨e, rfl⟩ <;> simp [Ty.NamesDistinct, plain]
    | tuple text members suffixed =>
      have tuple := isTuple_of_trim text suffixed.opens
      obtain ⟨given, inner⟩ := given tuple
      rw [suffixed.namesDistinct_iff, Param.Within, forall_prop_of_true tuple, Ty.NamesDistinct,
        Members.names components members, Members.namesDistinct_iff components members inner]
      simp only [Nat.zero_add, nodup_fieldNames_iff given]

theorem Members.namesDistinct_iff : (params : List Param) → ∀ {position : Nat} {fields : List Field},
    Members true position params fields → WithinEach GivenDistinct params →
      (Ty.NamesDistinctEach fields ↔ WithinEach PositionsFree params)
  | [], _, _, h, _ => by
    cases h
    exact Iff.rfl
  | p :: rest, _, _, h, given => by
    cases h with
    | cons spelled members =>
      rw [Ty.NamesDistinctEach, WithinEach, Spelled.namesDistinct_iff _ spelled given.1,
        Members.namesDistinct_iff rest members given.2]

end

end

/-- Where the given names differ at every level, the names of the fields do so exactly if no parameter was
given the name of an unnamed one beside it. Then no resolver finds a field repeated, and otherwise the fields
are refused after any calls. -/
theorem namesDistinct_iff_positionsFree {params : List Param} {fs : List Field} (accepted : fields params = .ok fs)
    (given : Throughout GivenDistinct params) :
    ((Ty.record fs).NamesDistinct ↔ Throughout PositionsFree params) ∧
    (Throughout PositionsFree params → ∀ (r : Resolver) (name owner field : String),
      (r.resolveParams name fs).1 ≠ .error (.duplicateField owner field)) ∧
    (¬ Throughout PositionsFree params → ∀ (calls : List Call) (name : String),
      ∃ e, ((Resolver.history calls).resolveParams name fs).1 = .error e) := by
  have members := (fieldsFrom_ok_iff params 0 fs).1 accepted
  have distinct : (Ty.record fs).NamesDistinct ↔ Throughout PositionsFree params := by
    rw [Ty.NamesDistinct, Members.names params members, Members.namesDistinct_iff params members given.2]
    simp only [Nat.zero_add, nodup_fieldNames_iff given.1, Throughout]
  refine ⟨distinct, ?_, ?_⟩
  · intro free r name owner field h
    rw [Resolver.resolveParams_eq] at h
    exact Interning.internWith_not_duplicate name (some name) (.record fs) (Members.references params members)
      (distinct.2 free) r.arena _ owner field (Prod.ext h rfl)
  · intro clash calls name
    cases resolved : ((Resolver.history calls).resolveParams name fs).1 with
    | error e => exact ⟨e, rfl⟩
    | ok id =>
      obtain ⟨valid, _⟩ := (Resolver.settled_history calls).sound_params resolved
      exact absurd (distinct.1 (Ty.Valid.namesDistinct _ valid)) clash

/-- Given names that look like positions, none of them the position of an unnamed parameter beside it. -/
def lookalikes : List Param :=
  [⟨"", "tuple[2]", [⟨"", "uint8", []⟩, ⟨"_2", "bool", []⟩]⟩, ⟨"_2", "uint256", []⟩, ⟨"_1", "address", []⟩]

theorem lookalikes_namesDistinct : ∃ fs, fields lookalikes = .ok fs ∧ Throughout GivenDistinct lookalikes ∧
    (Ty.record fs).NamesDistinct ∧ ∀ (r : Resolver) (name owner field : String),
      (r.resolveParams name fs).1 ≠ .error (.duplicateField owner field) := by
  have given : Throughout GivenDistinct lookalikes := by decide
  have free : Throughout PositionsFree lookalikes := by decide
  obtain ⟨fs, accepted⟩ : ∃ fs, fields lookalikes = .ok fs := ⟨_, rfl⟩
  obtain ⟨distinct, unrepeated, _⟩ := namesDistinct_iff_positionsFree accepted given
  exact ⟨fs, accepted, given, distinct.2 free, unrepeated free⟩

/-- A second parameter without a name is called as the first one was named. -/
theorem fields_called_alike :
    let params : List Param := [⟨"_1", "uint256", []⟩, ⟨"", "bool", []⟩]
    let fs : List Field := [⟨"_1", .uint 256⟩, ⟨"_1", .bool⟩]
    fields params = .ok fs ∧ Throughout GivenDistinct params ∧ ¬ (Ty.record fs).NamesDistinct ∧
      (Resolver.empty.resolveParams "f" fs).1 = .error (.duplicateField "f" "_1") := by
  intro params fs
  refine ⟨rfl, by decide, fun distinct => ?_, rfl⟩
  exact absurd distinct.1 (by decide)

end Interface
end Calldata

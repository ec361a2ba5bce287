import Calldata.Proofs.Messages

/-!
Plans and decoders as they are read from their binary form. Every message of the form has its reader,
and each reader gives back what was written: a missing number is zero, a missing text is empty, and an
optional part is there exactly if it was there before. So no two sets of decoders have the same bytes.

Readers take a limit on how deep messages nest. A message is longer than those inside it, so a limit
that is not below the number of bytes never matters.
-/
namespace Calldata
open Message

def Op.ofCode (code : Nat) : Option Op :=
  [Op.add, .sub, .mul, .div, .shl, .shr, .and, .or, .xor][(UInt32.ofNat code).toNat]?

theorem Op.ofCode_code (op : Op) : ofCode op.code = some op := by
  cases op <;> rfl

namespace Term

/-- The records that say what a term is. -/
def isKind (r : Record) : Bool :=
  match r.number, r.payload with
  | 1, .number _ => true
  | 2, .block _ => true
  | 3, .block _ => true
  | 4, .block _ => true
  | _, _ => false

def ofOperands (term : List Record → Option Term) (fields : List Record) : Option Term := do
  return .binary (← Op.ofCode (number 1 fields)) (← required 2 term fields) (← required 3 term fields)

/-- A term from the records of its kind, where `term` reads the terms in it. -/
def ofKind (term : List Record → Option Term) (kind : List Record) : Option Term :=
  match kind.getLast? with
  | some ⟨1, .number n⟩ => some (.literal (UInt64.ofNat n).toInt64)
  | some ⟨2, .block bytes⟩ => (textOf bytes).map .var
  | some ⟨3, .block _⟩ => (required 3 (required 1 term) kind).map .load
  | some ⟨4, .block _⟩ => required 4 (ofOperands term) kind
  | _ => none

def ofFields : Nat → List Record → Option Term
  | 0, _ => none
  | limit + 1, fields => ofKind (ofFields limit) (choice isKind fields)

end Term

def Pointer.ofFields (limit : Nat) (fields : List Record) : Option Pointer := do
  return ⟨← required 1 (Term.ofFields limit) fields, ← required 2 (Term.ofFields limit) fields,
    ← optionalText 3 fields⟩

def Copy.ofFields (limit : Nat) (fields : List Record) : Option Copy := do
  return ⟨← required 1 (Term.ofFields limit) fields, ← required 2 (Term.ofFields limit) fields,
    ← required 3 (Term.ofFields limit) fields, ← texts 4 fields⟩

def namedPair {α : Type} (make : String → Term → Term → α) (limit : Nat) (fields : List Record) : Option α := do
  return make (← text 1 fields) (← required 2 (Term.ofFields limit) fields) (← required 3 (Term.ofFields limit) fields)

def Cursor.ofFields : Nat → List Record → Option Cursor := namedPair Cursor.mk

def Check.ofFields : Nat → List Record → Option Check := namedPair Check.mk

def Loop.ofFields (plan : List Record → Option Plan) (limit : Nat) (fields : List Record) : Option Loop := do
  return ⟨← text 1 fields, ← text 2 fields, ← required 3 (Term.ofFields limit) fields,
    ← repeated 4 (Cursor.ofFields limit) fields, ← required 5 plan fields⟩

def Plan.ofFields : Nat → List Record → Option Plan
  | 0, _ => none
  | limit + 1, fields => do
    return ⟨← repeated 1 (Pointer.ofFields limit) fields, ← repeated 2 (Copy.ofFields limit) fields,
      ← repeated 3 (Loop.ofFields (ofFields limit) limit) fields, ← repeated 4 (Check.ofFields limit) fields,
      ← required 5 (Term.ofFields limit) fields, ← optional 6 (Term.ofFields limit) fields⟩

def Decoder.ofFields (limit : Nat) (fields : List Record) : Option Decoder := do
  return ⟨← text 1 fields, number 2 fields != 0, ← required 3 (Plan.ofFields limit) fields⟩

def DecoderSet.ofFields (limit : Nat) (fields : List Record) : Option DecoderSet := do
  return ⟨UInt32.ofNat (number 1 fields), ← repeated 2 (Decoder.ofFields limit) fields⟩

def DecoderSet.ofProtobuf (limit : Nat) (bytes : List UInt8) : Option DecoderSet := readMessage (ofFields limit) bytes

namespace Term

theorem restores_of_record {bytes : List UInt8} {r : Record} {t : Term} (w : Writes bytes [r]) (kind : isKind r)
    (h : ∀ limit, bytes.length ≤ limit + 1 → ofKind (ofFields limit) [r] = some t) : Restores ofFields bytes t := by
  apply w.restores
  intro limit fits
  cases limit with
  | zero =>
    -- A record takes at least a byte.
    have read := w.readFields_eq
    rw [List.eq_nil_of_length_eq_zero (Nat.le_zero.1 fits)] at read
    simp [readFields] at read
  | succ limit => simpa [ofFields, choice, kind] using h limit fits

theorem restores_address {a : Term} (h : Restores ofFields a.toProtobuf a) :
    Restores (fun limit => required 1 (ofFields limit)) (Protobuf.blockField 1 a.toProtobuf) a := by
  have w := writes_blockField (k := 1) (by decide) a.toProtobuf
  apply w.restores
  intro limit fits
  exact restores_required w (by omega) (by simp) h

theorem restores_operands (op : Op) {l r : Term} (hl : Restores ofFields l.toProtobuf l)
    (hr : Restores ofFields r.toProtobuf r) :
    Restores (fun limit => ofOperands (ofFields limit))
      (Protobuf.numberFieldUnlessZero 1 op.code ++ Protobuf.blockField 2 l.toProtobuf ++ Protobuf.blockField 3 r.toProtobuf)
      (.binary op l r) := by
  have w := ((writes_numberFieldUnlessZero (k := 1) (by decide) op.code).append
    (writes_blockField (k := 2) (by decide) l.toProtobuf)).append (writes_blockField (k := 3) (by decide) r.toProtobuf)
  apply w.restores
  intro limit fits
  simp only [ofOperands, Option.bind_eq_bind, Option.bind_eq_some_iff]
  exact ⟨op, by rw [number_of_numbers (n := op.code) (by simp), Op.ofCode_code],
    l, restores_required w (by omega) (by simp) hl,
    r, restores_required w (by omega) (by simp) hr, rfl⟩

theorem restores (t : Term) : Restores ofFields t.toProtobuf t := by
  induction t with
  | literal value =>
    apply restores_of_record (writes_numberField (by decide) _) rfl
    intro limit fits
    simp [ofKind]
  | var name =>
    apply restores_of_record (writes_blockField (by decide) _) rfl
    intro limit fits
    simp [ofKind]
  | load address ih =>
    have w : Writes (load address).toProtobuf _ := writes_blockField (by decide) _
    apply restores_of_record w rfl
    intro limit fits
    have found : required 3 (required 1 (ofFields limit)) _ = some address :=
      restores_required w fits (by simp) (restores_address ih)
    simp [ofKind, found]
  | binary op left right ihl ihr =>
    have w : Writes (binary op left right).toProtobuf _ := writes_blockField (by decide) _
    apply restores_of_record w rfl
    intro limit fits
    exact restores_required w fits (by simp) (restores_operands op ihl ihr)

end Term

theorem Pointer.restores (p : Pointer) : Restores ofFields p.toProtobuf p := by
  have w : Writes p.toProtobuf _ :=
    ((writes_blockField (by decide) _).append (writes_blockField (by decide) _)).append
      (writes_option (by decide) _ _)
  apply w.restores
  intro limit fits
  simp only [ofFields, Option.bind_eq_bind, Option.bind_eq_some_iff]
  exact ⟨p.dst, restores_required w (by omega) (by simp) p.dst.restores,
    p.value, restores_required w (by omega) (by simp) p.value.restores,
    p.name, optionalText_of_blocks (by simp), rfl⟩

theorem Copy.restores (c : Copy) : Restores ofFields c.toProtobuf c := by
  have w : Writes c.toProtobuf _ :=
    (((writes_blockField (by decide) _).append (writes_blockField (by decide) _)).append
      (writes_blockField (by decide) _)).append (writes_flatMap (by decide) _ _)
  apply w.restores
  intro limit fits
  simp only [ofFields, Option.bind_eq_bind, Option.bind_eq_some_iff]
  exact ⟨c.dst, restores_required w (by omega) (by simp) c.dst.restores,
    c.src, restores_required w (by omega) (by simp) c.src.restores,
    c.size, restores_required w (by omega) (by simp) c.size.restores,
    c.names, texts_of_blocks _ (by simp), rfl⟩

theorem restores_namedPair {α : Type} (make : String → Term → Term → α) (name : String) (first second : Term) :
    Restores (namedPair make)
      (Protobuf.textFieldUnlessEmpty 1 name ++ Protobuf.blockField 2 first.toProtobuf ++ Protobuf.blockField 3 second.toProtobuf)
      (make name first second) := by
  have w := ((writes_textFieldUnlessEmpty (k := 1) (by decide) name).append
    (writes_blockField (k := 2) (by decide) first.toProtobuf)).append
    (writes_blockField (k := 3) (by decide) second.toProtobuf)
  apply w.restores
  intro limit fits
  simp only [namedPair, Option.bind_eq_bind, Option.bind_eq_some_iff]
  exact ⟨name, text_of_blocks (by simp),
    first, restores_required w (by omega) (by simp) first.restores,
    second, restores_required w (by omega) (by simp) second.restores, rfl⟩

theorem Cursor.restores (c : Cursor) : Restores ofFields c.toProtobuf c :=
  restores_namedPair Cursor.mk c.name c.init c.step

theorem Check.restores (c : Check) : Restores ofFields c.toProtobuf c :=
  restores_namedPair Check.mk c.name c.actual c.expected

def Loop.toProtobuf (l : Loop) : List UInt8 :=
  Protobuf.textFieldUnlessEmpty 1 l.name ++ Protobuf.textFieldUnlessEmpty 2 l.index ++ Protobuf.blockField 3 l.count.toProtobuf ++
    l.cursors.flatMap (fun c => Protobuf.blockField 4 c.toProtobuf) ++ Protobuf.blockField 5 l.body.toProtobuf

theorem loopsToProtobuf_eq (loops : List Loop) :
    loopsToProtobuf loops = loops.flatMap fun l => Protobuf.blockField 3 l.toProtobuf := by
  induction loops with
  | nil => simp [loopsToProtobuf]
  | cons l rest ih =>
    obtain ⟨name, index, count, cursors, body⟩ := l
    rw [loopsToProtobuf, ih]
    rfl

theorem writes_loops (loops : List Loop) :
    Writes (loopsToProtobuf loops) (loops.map fun l => ⟨3, .block l.toProtobuf⟩) := by
  rw [loopsToProtobuf_eq]
  exact writes_flatMap (by decide) _ _

theorem Loop.restores {l : Loop} (inner : Restores Plan.ofFields l.body.toProtobuf l.body) :
    Restores (fun limit => ofFields (Plan.ofFields limit) limit) l.toProtobuf l := by
  have w : Writes l.toProtobuf _ :=
    ((((writes_textFieldUnlessEmpty (by decide) _).append (writes_textFieldUnlessEmpty (by decide) _)).append
      (writes_blockField (by decide) _)).append (writes_flatMap (by decide) _ _)).append
      (writes_blockField (by decide) _)
  apply w.restores
  intro limit fits
  obtain ⟨name, index, count, cursors, body⟩ := l
  simp only [ofFields, Option.bind_eq_bind, Option.bind_eq_some_iff]
  exact ⟨name, text_of_blocks (by simp), index, text_of_blocks (by simp),
    count, restores_required w (by omega) (by simp) count.restores,
    cursors, restores_repeated _ w (by omega) (by simp) fun c _ => c.restores,
    body, restores_required w (by omega) (by simp) inner, rfl⟩

theorem Plan.restores_of_loops {p : Plan} (bodies : ∀ l ∈ p.loops, Restores ofFields l.body.toProtobuf l.body) :
    Restores ofFields p.toProtobuf p := by
  obtain ⟨pointers, copies, loops, checks, memorySize, calldataSize⟩ := p
  have w : Writes (toProtobuf ⟨pointers, copies, loops, checks, memorySize, calldataSize⟩) _ :=
    (((((writes_flatMap (by decide) _ _).append (writes_flatMap (by decide) _ _)).append
      (writes_loops loops)).append (writes_flatMap (by decide) _ _)).append
      (writes_blockField (by decide) _)).append (writes_option (by decide) _ _)
  apply w.restores
  intro limit fits
  cases limit with
  | zero =>
    -- A plan always gives its size, so it is not written as nothing.
    have size : memorySize.toProtobuf.length < _ := w.length_lt (k := 5) (by simp)
    omega
  | succ limit =>
    have inner (l : Loop) (hl : l ∈ loops) : Restores (fun n => Loop.ofFields (ofFields n) n) l.toProtobuf l :=
      Loop.restores (bodies l hl)
    have found := restores_repeated (k := 3) Loop.toProtobuf w fits (by simp) inner
    simp only [ofFields, Option.bind_eq_bind, Option.bind_eq_some_iff]
    exact ⟨pointers, restores_repeated _ w fits (by simp) fun p _ => p.restores,
      copies, restores_repeated _ w fits (by simp) fun c _ => c.restores,
      loops, found,
      checks, restores_repeated _ w fits (by simp) fun c _ => c.restores,
      memorySize, restores_required w fits (by simp) memorySize.restores,
      calldataSize, restores_optional _ w fits (by simp) fun t _ => t.restores, rfl⟩

-- The bodies of loops are plans again, so plans and lists of loops go together.
mutual

theorem Plan.restores : (p : Plan) → Restores Plan.ofFields p.toProtobuf p
  | ⟨_, _, loops, _, _, _⟩ => Plan.restores_of_loops (restores_bodies loops)

theorem restores_bodies : (loops : List Loop) → ∀ l ∈ loops, Restores Plan.ofFields l.body.toProtobuf l.body
  | [] => by simp
  | ⟨_, _, _, _, body⟩ :: rest => List.forall_mem_cons.2 ⟨body.restores, restores_bodies rest⟩

end

theorem Decoder.restores (d : Decoder) : Restores ofFields d.toProtobuf d := by
  have w : Writes d.toProtobuf _ :=
    ((writes_textFieldUnlessEmpty (by decide) _).append (writes_numberFieldUnlessZero (by decide) _)).append
      (writes_blockField (by decide) _)
  apply w.restores
  intro limit fits
  simp only [ofFields, Option.bind_eq_bind, Option.bind_eq_some_iff]
  refine ⟨d.typeName, text_of_blocks (by simp),
    d.plan, restores_required w (by omega) (by simp) d.plan.restores, ?_⟩
  rw [number_of_numbers (n := d.strict.toNat) (by simp)]
  obtain ⟨typeName, strict, plan⟩ := d
  cases strict with
  | false => rfl
  | true => rfl

theorem DecoderSet.restores (d : DecoderSet) : Restores ofFields d.toProtobuf d := by
  have w : Writes d.toProtobuf _ :=
    (writes_numberFieldUnlessZero (by decide) _).append (writes_flatMap (by decide) _ _)
  apply w.restores
  intro limit fits
  simp only [ofFields, Option.bind_eq_bind, Option.bind_eq_some_iff]
  refine ⟨d.decoders, restores_repeated _ w (by omega) (by simp) fun decoder _ => decoder.restores, ?_⟩
  rw [number_of_numbers (n := d.version.toNat) (by simp), UInt32.ofNat_toNat]
  rfl

/-- A set of decoders is read back from its bytes, whatever its texts and numbers and however deep it
nests. So its bytes belong to no other set. -/
theorem wire_round_trip (d : DecoderSet) :
    (∀ limit, d.toProtobuf.length ≤ limit → DecoderSet.ofProtobuf limit d.toProtobuf = some d) ∧
      ∀ e : DecoderSet, e.toProtobuf = d.toProtobuf → e = d := by
  constructor
  · exact d.restores
  · intro e same
    have left := e.restores d.toProtobuf.length (Nat.le_of_eq (congrArg List.length same))
    have right := d.restores d.toProtobuf.length (Nat.le_refl _)
    rw [same] at left
    exact Option.some.inj (left.symm.trans right)

/-- A pointer without a name and one with an empty name, everything else zero or empty. -/
theorem wire_round_trip_nameless :
    let set (name : Option String) : DecoderSet :=
      ⟨0, [⟨"", false, ⟨[⟨.literal 0, .binary .add (.var "") (.literal (-1)), name⟩], [], [], [], .literal 0, none⟩⟩]⟩
    (set none).toProtobuf ≠ (set (some "")).toProtobuf ∧
      ∀ name, DecoderSet.ofProtobuf (set name).toProtobuf.length (set name).toProtobuf = some (set name) := by
  intro set
  constructor
  · intro same
    have equal := (wire_round_trip (set (some ""))).2 (set none) same
    simp [set] at equal
  · intro name
    exact (wire_round_trip (set name)).1 _ (Nat.le_refl _)

end Calldata

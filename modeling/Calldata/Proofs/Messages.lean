import Calldata.Decoder.Protobuf
import Calldata.Proofs.Traversal

/-!
Reading the protocol buffers wire format. A message is a sequence of fields in any order. Of a plain
number or text the last one counts, and where there is none it is zero or empty. A message that is
given in parts is read as the sequence of all their fields. Of the members of a choice the last one
counts. Unknown fields are passed over. The main statement of this module is that the fields of what
was written are found again, one after the other.
-/
namespace Calldata
namespace Message
open Protobuf (varint numberField blockField textField numberFieldUnlessZero textFieldUnlessEmpty)

def readVarint : List UInt8 → Option (Nat × List UInt8)
  | [] => none
  | b :: rest =>
    if b.toNat < 128 then some (b.toNat, rest)
    else (readVarint rest).map fun r => (b.toNat - 128 + 128 * r.1, r.2)

inductive Payload where
  | number (n : Nat)
  | block (bytes : List UInt8)
  /-- Four or eight bytes. -/
  | fixed (bytes : List UInt8)

structure Record where
  number : Nat
  payload : Payload

def readBytes (count : Nat) (bytes : List UInt8) : Option (List UInt8 × List UInt8) :=
  if count ≤ bytes.length then some (bytes.take count, bytes.drop count) else none

/-- A payload by its wire type. The two types that bracket a group of fields are refused. -/
def readPayload (type : Nat) (bytes : List UInt8) : Option (Payload × List UInt8) :=
  match type with
  | 0 => (readVarint bytes).map fun r => (.number r.1, r.2)
  | 1 => (readBytes 8 bytes).map fun r => (.fixed r.1, r.2)
  | 2 => (readVarint bytes).bind fun r => (readBytes r.1 r.2).map fun r => (.block r.1, r.2)
  | 5 => (readBytes 4 bytes).map fun r => (.fixed r.1, r.2)
  | _ => none

def readField (bytes : List UInt8) : Option (Record × List UInt8) := do
  let tag ← readVarint bytes
  if tag.1 / 8 = 0 then none
  else
    let r ← readPayload (tag.1 % 8) tag.2
    return (⟨tag.1 / 8, r.1⟩, r.2)

theorem length_of_readVarint {bytes : List UInt8} {r : Nat × List UInt8} (h : readVarint bytes = some r) :
    r.2.length < bytes.length := by
  induction bytes generalizing r with
  | nil => cases h
  | cons b rest ih =>
    unfold readVarint at h
    split at h
    · cases h
      simp
    · obtain ⟨s, hs, rfl⟩ := Option.map_eq_some_iff.1 h
      have := ih hs
      simp only [List.length_cons]
      omega

theorem length_of_readBytes {count : Nat} {bytes : List UInt8} {r : List UInt8 × List UInt8}
    (h : readBytes count bytes = some r) : r.2.length ≤ bytes.length := by
  unfold readBytes at h
  split at h
  · cases h
    simp
  · cases h

theorem length_of_readPayload {type : Nat} {bytes : List UInt8} {r : Payload × List UInt8}
    (h : readPayload type bytes = some r) : r.2.length ≤ bytes.length := by
  unfold readPayload at h
  split at h
  · obtain ⟨s, hs, rfl⟩ := Option.map_eq_some_iff.1 h
    exact Nat.le_of_lt (length_of_readVarint hs)
  · obtain ⟨s, hs, rfl⟩ := Option.map_eq_some_iff.1 h
    exact length_of_readBytes hs
  · obtain ⟨n, hn, h⟩ := Option.bind_eq_some_iff.1 h
    obtain ⟨s, hs, rfl⟩ := Option.map_eq_some_iff.1 h
    exact Nat.le_trans (length_of_readBytes hs) (Nat.le_of_lt (length_of_readVarint hn))
  · obtain ⟨s, hs, rfl⟩ := Option.map_eq_some_iff.1 h
    exact length_of_readBytes hs
  · cases h

theorem length_of_readField {bytes : List UInt8} {r : Record × List UInt8} (h : readField bytes = some r) :
    r.2.length < bytes.length := by
  obtain ⟨tag, htag, h⟩ := Option.bind_eq_some_iff.1 h
  split at h
  · cases h
  · obtain ⟨s, hs, h⟩ := Option.bind_eq_some_iff.1 h
    cases h
    exact Nat.lt_of_le_of_lt (length_of_readPayload hs) (length_of_readVarint htag)

def readFields (bytes : List UInt8) : Option (List Record) :=
  if bytes = [] then some []
  else
    match h : readField bytes with
    | none => none
    | some r =>
      have := length_of_readField h
      (readFields r.2).map (r.1 :: ·)
termination_by bytes.length

theorem readFields_of_readField {bytes : List UInt8} {r : Record × List UInt8} (h : readField bytes = some r) :
    readFields bytes = (readFields r.2).map (r.1 :: ·) := by
  have shorter := length_of_readField h
  have given : bytes ≠ [] := by
    rintro rfl
    simp at shorter
  rw [readFields, if_neg given]
  split
  · next none => rw [none] at h; cases h
  · next s some => rw [some] at h; cases h; rfl

section Lookup
variable {α : Type}

def Record.block? (k : Nat) (f : Record) : Option (List UInt8) :=
  match f.payload with
  | .block bytes => if f.number = k then some bytes else none
  | _ => none

def Record.number? (k : Nat) (f : Record) : Option Nat :=
  match f.payload with
  | .number n => if f.number = k then some n else none
  | _ => none

def blocks (k : Nat) (fields : List Record) : List (List UInt8) := fields.filterMap (Record.block? k)

def numbers (k : Nat) (fields : List Record) : List Nat := fields.filterMap (Record.number? k)

def number (k : Nat) (fields : List Record) : Nat := (numbers k fields).getLastD 0

def textOf (bytes : List UInt8) : Option String := String.fromUTF8? ⟨bytes.toArray⟩

def texts (k : Nat) (fields : List Record) : Option (List String) := (blocks k fields).mapM textOf

def text (k : Nat) (fields : List Record) : Option String := (texts k fields).map (·.getLastD "")

def optionalText (k : Nat) (fields : List Record) : Option (Option String) := (texts k fields).map (·.getLast?)

def readMessage (read : List Record → Option α) (bytes : List UInt8) : Option α := (readFields bytes).bind read

def repeated (k : Nat) (read : List Record → Option α) (fields : List Record) : Option (List α) :=
  (blocks k fields).mapM (readMessage read)

/-- The message given in a field, put together from all its parts. -/
def optional (k : Nat) (read : List Record → Option α) (fields : List Record) : Option (Option α) :=
  if blocks k fields = [] then some none
  else ((blocks k fields).mapM readFields).bind fun parts => (read parts.flatten).map some

def required (k : Nat) (read : List Record → Option α) (fields : List Record) : Option α :=
  (optional k read fields).join

/-- The member of a choice that counts: the last one, with the parts of it right before. -/
def choice (isMember : Record → Bool) (fields : List Record) : List Record :=
  let members := (fields.filter isMember).reverse
  (members.takeWhile fun f => f.number = (members.head?.map Record.number).getD 0).reverse

end Lookup

section Writing
variable {bytes more : List UInt8} {fields others : List Record} {k : Nat}

theorem readVarint_varint (n : Nat) (rest : List UInt8) : readVarint (varint n ++ rest) = some (n, rest) := by
  induction n using Nat.strongRecOn with
  | ind n ih =>
    unfold varint
    split
    · next small => simp [readVarint, Nat.mod_eq_of_lt (show n < 256 by omega), small]
    · next large =>
      -- The high bit is set, so the reader goes on with the remaining groups.
      have group : (UInt8.ofNat (n % 128 + 128)).toNat = n % 128 + 128 := by
        rw [UInt8.toNat_ofNat']
        omega
      rw [List.cons_append, readVarint, group, if_neg (by omega), ih (n / 128) (by omega)]
      simp only [Option.map_some, Option.some.injEq, Prod.mk.injEq, and_true]
      omega

theorem readBytes_append (rest : List UInt8) : readBytes bytes.length (bytes ++ rest) = some (bytes, rest) := by
  simp [readBytes]

theorem readField_numberField (pos : 0 < k) (n : Nat) (rest : List UInt8) :
    readField (numberField k n ++ rest) = some (⟨k, .number n⟩, rest) := by
  have tag : k * 8 / 8 = k ∧ k * 8 % 8 = 0 := by omega
  unfold readField numberField
  rw [List.append_assoc, readVarint_varint]
  simp only [Option.bind_eq_bind, Option.bind_some, tag, Nat.ne_of_gt pos, if_false, readPayload, readVarint_varint,
    Option.map_some, Option.pure_def]

theorem readField_blockField (pos : 0 < k) (rest : List UInt8) :
    readField (blockField k bytes ++ rest) = some (⟨k, .block bytes⟩, rest) := by
  have tag : (k * 8 + 2) / 8 = k ∧ (k * 8 + 2) % 8 = 2 := by omega
  unfold readField blockField
  rw [List.append_assoc, List.append_assoc, readVarint_varint]
  simp only [Option.bind_eq_bind, Option.bind_some, tag, Nat.ne_of_gt pos, if_false, readPayload, readVarint_varint,
    readBytes_append, Option.map_some, Option.pure_def]

inductive Writes : List UInt8 → List Record → Prop
  | nil : Writes [] []
  | number {bytes : List UInt8} {fields : List Record} {k : Nat} (pos : 0 < k) (n : Nat)
      (rest : Writes bytes fields) : Writes (numberField k n ++ bytes) (⟨k, .number n⟩ :: fields)
  | block {bytes : List UInt8} {fields : List Record} {k : Nat} (pos : 0 < k) (payload : List UInt8)
      (rest : Writes bytes fields) : Writes (blockField k payload ++ bytes) (⟨k, .block payload⟩ :: fields)

/-- The fields that were written are the fields that are read. -/
theorem Writes.readFields_eq (w : Writes bytes fields) : readFields bytes = some fields := by
  induction w with
  | nil => simp [readFields]
  | number pos n rest ih => simp [readFields_of_readField (readField_numberField pos n _), ih]
  | block pos payload rest ih => simp [readFields_of_readField (readField_blockField pos _), ih]

theorem Writes.append (w : Writes bytes fields) (v : Writes more others) :
    Writes (bytes ++ more) (fields ++ others) := by
  induction w with
  | nil => exact v
  | number pos n rest ih =>
    rw [List.append_assoc]
    exact .number pos n ih
  | block pos payload rest ih =>
    rw [List.append_assoc]
    exact .block pos payload ih

theorem writes_numberField (pos : 0 < k) (n : Nat) : Writes (numberField k n) [⟨k, .number n⟩] := by
  simpa using Writes.number pos n .nil

theorem writes_blockField (pos : 0 < k) (payload : List UInt8) :
    Writes (blockField k payload) [⟨k, .block payload⟩] := by
  simpa using Writes.block pos payload .nil

theorem writes_numberFieldUnlessZero (pos : 0 < k) (n : Nat) :
    Writes (numberFieldUnlessZero k n) (if n = 0 then [] else [⟨k, .number n⟩]) := by
  unfold numberFieldUnlessZero
  split
  · exact .nil
  · exact writes_numberField pos n

theorem writes_textFieldUnlessEmpty (pos : 0 < k) (s : String) :
    Writes (textFieldUnlessEmpty k s) (if s = "" then [] else [⟨k, .block s.toUTF8.data.toList⟩]) := by
  unfold textFieldUnlessEmpty
  split
  · exact .nil
  · exact writes_blockField pos _

theorem writes_flatMap {α : Type} (pos : 0 < k) (payload : α → List UInt8) (xs : List α) :
    Writes (xs.flatMap fun x => blockField k (payload x)) (xs.map fun x => ⟨k, .block (payload x)⟩) := by
  induction xs with
  | nil => exact .nil
  | cons x xs ih => exact .block pos (payload x) ih

theorem writes_option {α : Type} (pos : 0 < k) (payload : α → List UInt8) (o : Option α) :
    Writes ((o.map fun x => blockField k (payload x)).getD []) (o.toList.map fun x => ⟨k, .block (payload x)⟩) := by
  cases o with
  | none => exact .nil
  | some x => exact writes_blockField pos (payload x)

end Writing

section Finding
variable {α : Type} {fields others : List Record} {j k n : Nat} {bytes : List UInt8}

@[simp] theorem blocks_nil : blocks k [] = [] := rfl

@[simp] theorem blocks_append : blocks k (fields ++ others) = blocks k fields ++ blocks k others :=
  List.filterMap_append

@[simp] theorem blocks_ite (c : Prop) [Decidable c] :
    blocks k (if c then fields else others) = if c then blocks k fields else blocks k others :=
  apply_ite (blocks k) c fields others

@[simp] theorem blocks_number : blocks k (⟨j, .number n⟩ :: fields) = blocks k fields := rfl

@[simp] theorem blocks_block :
    blocks k (⟨j, .block bytes⟩ :: fields) = if j = k then bytes :: blocks k fields else blocks k fields := by
  unfold blocks
  split
  · next h => simp [Record.block?, h]
  · next h => simp [Record.block?, h]

@[simp] theorem blocks_map (payload : α → List UInt8) (xs : List α) :
    blocks k (xs.map fun x => ⟨j, .block (payload x)⟩) = if j = k then xs.map payload else [] := by
  induction xs with
  | nil => simp
  | cons x xs ih =>
    rw [List.map_cons, blocks_block, ih]
    split
    · rfl
    · rfl

@[simp] theorem numbers_nil : numbers k [] = [] := rfl

@[simp] theorem numbers_append : numbers k (fields ++ others) = numbers k fields ++ numbers k others :=
  List.filterMap_append

@[simp] theorem numbers_ite (c : Prop) [Decidable c] :
    numbers k (if c then fields else others) = if c then numbers k fields else numbers k others :=
  apply_ite (numbers k) c fields others

@[simp] theorem numbers_number :
    numbers k (⟨j, .number n⟩ :: fields) = if j = k then n :: numbers k fields else numbers k fields := by
  unfold numbers
  split
  · next h => simp [Record.number?, h]
  · next h => simp [Record.number?, h]

@[simp] theorem numbers_block : numbers k (⟨j, .block bytes⟩ :: fields) = numbers k fields := rfl

@[simp] theorem numbers_map (payload : α → List UInt8) (xs : List α) :
    numbers k (xs.map fun x => ⟨j, .block (payload x)⟩) = [] := by
  simp [numbers, Record.number?]

theorem number_of_numbers (given : numbers k fields = if n = 0 then [] else [n]) : number k fields = n := by
  unfold number
  rw [given]
  split
  · next zero => exact zero.symm
  · rfl

@[simp] theorem textOf_toByteArray (s : String) : textOf s.toByteArray.data.toList = some s := by
  unfold textOf String.fromUTF8?
  exact dif_pos s.isValidUTF8

theorem texts_of_blocks (xs : List String) (given : blocks k fields = xs.map fun s => s.toUTF8.data.toList) :
    texts k fields = some xs := by
  unfold texts
  rw [given]
  exact mapM_map_eq_some fun s _ => textOf_toByteArray s

theorem text_of_blocks {s : String} (given : blocks k fields = if s = "" then [] else [s.toUTF8.data.toList]) :
    text k fields = some s := by
  unfold text
  by_cases empty : s = ""
  · rw [texts_of_blocks [] (by simpa [empty] using given), empty]
    rfl
  · rw [texts_of_blocks [s] (by simpa [empty] using given)]
    rfl

theorem optionalText_of_blocks {o : Option String}
    (given : blocks k fields = o.toList.map fun s => s.toUTF8.data.toList) : optionalText k fields = some o := by
  unfold optionalText
  rw [texts_of_blocks _ given]
  cases o with
  | none => rfl
  | some s => rfl

end Finding

/-- A message is read back from its bytes, with any limit on its nesting that is not below their
number. -/
def Restores {α : Type} (read : Nat → List Record → Option α) (bytes : List UInt8) (x : α) : Prop :=
  ∀ limit, bytes.length ≤ limit → readMessage (read limit) bytes = some x

section Restoring
variable {α : Type} {read : Nat → List Record → Option α} {whole : List UInt8} {fields : List Record} {k limit : Nat}

theorem Writes.restores {x : α} (w : Writes whole fields)
    (h : ∀ limit, whole.length ≤ limit → read limit fields = some x) : Restores read whole x := by
  intro limit fits
  unfold readMessage
  rw [w.readFields_eq]
  exact h limit fits

theorem length_lt_blockField (k : Nat) (payload : List UInt8) : payload.length < (blockField k payload).length := by
  have tag : varint (k * 8 + 2) ≠ [] := by
    unfold varint
    split
    · simp
    · simp
  have := List.length_pos_iff.2 tag
  simp only [blockField, List.length_append]
  omega

theorem Writes.length_lt {payload : List UInt8} (w : Writes whole fields) (h : payload ∈ blocks k fields) :
    payload.length < whole.length := by
  induction w with
  | nil => simp at h
  | number pos n rest ih =>
    have := ih h
    simp only [List.length_append]
    omega
  | @block bytes fields j pos content rest ih =>
    have own := length_lt_blockField j content
    simp only [List.length_append]
    rw [blocks_block] at h
    split at h
    · rcases List.mem_cons.1 h with rfl | h
      · omega
      · have := ih h
        omega
    · have := ih h
      omega

theorem restores_repeated {xs : List α} (payload : α → List UInt8) (w : Writes whole fields)
    (fits : whole.length ≤ limit + 1) (given : blocks k fields = xs.map payload)
    (restores : ∀ x ∈ xs, Restores read (payload x) x) : repeated k (read limit) fields = some xs := by
  unfold repeated
  rw [given]
  apply mapM_map_eq_some
  intro x hx
  have shorter := w.length_lt (given ▸ List.mem_map_of_mem hx)
  exact restores x hx limit (by omega)

theorem restores_optional {o : Option α} (payload : α → List UInt8) (w : Writes whole fields)
    (fits : whole.length ≤ limit + 1) (given : blocks k fields = o.toList.map payload)
    (restores : ∀ x ∈ o, Restores read (payload x) x) : optional k (read limit) fields = some o := by
  unfold optional
  cases o with
  | none => simp_all
  | some x =>
    have shorter : (payload x).length < whole.length := w.length_lt (k := k) (by simp [given])
    obtain ⟨parts, hparts, hx⟩ := Option.bind_eq_some_iff.1 (restores x rfl limit (by omega))
    simp [given, hparts, hx]

theorem restores_required {x : α} {bytes : List UInt8} (w : Writes whole fields)
    (fits : whole.length ≤ limit + 1) (given : blocks k fields = [bytes])
    (restores : Restores read bytes x) : required k (read limit) fields = some x := by
  unfold required
  rw [restores_optional (o := some x) (fun _ => bytes) w fits given (by simpa using restores)]
  rfl

end Restoring
end Message
end Calldata

import Calldata.Proofs.AtomText
import Calldata.Proofs.FreshNames
import Calldata.Proofs.TypeNames

/-!
Signatures tell overloads apart. The parts of a signature have balanced parentheses and no comma outside
them, so a signature falls apart into its parts in one way only, and from a part the type of its parameter
can be read again, up to the names of fields. Only a tuple with white space in front of its type string
is spelled without its members.
-/
namespace Calldata

namespace Text
variable {cs word : List Char} {c first last : Char}

def trimRight (cs : List Char) : List Char := (trimLeft cs.reverse).reverse

theorem trim_eq (cs : List Char) : trim cs = trimRight (trimLeft cs) := rfl

theorem trimLeft_append (starts : word.head? = some first) (shown : isBlank first = false) (cs : List Char) :
    trimLeft (word ++ cs) = word ++ cs := by
  obtain ⟨rest, rfl⟩ := List.head?_eq_some_iff.1 starts
  rw [List.cons_append, trimLeft, List.dropWhile_cons, shown]
  rfl

theorem trimRight_append (ends : word.getLast? = some last) (shown : isBlank last = false) (cs : List Char) :
    trimRight (word ++ cs) = word ++ trimRight cs := by
  have kept : word.reverse.dropWhile isBlank = word.reverse := by
    obtain ⟨rest, rfl⟩ := List.getLast?_eq_some_iff.1 ends
    rw [List.reverse_append, List.reverse_singleton, List.singleton_append, List.dropWhile_cons, shown]
    rfl
  rw [trimRight, trimRight, trimLeft, trimLeft, List.reverse_append, List.dropWhile_append, kept]
  split
  · next blank => rw [List.isEmpty_iff.1 blank, List.reverse_reverse, List.reverse_nil, List.append_nil]
  · rw [List.reverse_append, List.reverse_reverse]

theorem trim_append (starts : word.head? = some first) (ends : word.getLast? = some last)
    (first_shown : isBlank first = false) (last_shown : isBlank last = false) (cs : List Char) :
    trim (word ++ cs) = word ++ trimRight cs := by
  rw [trim_eq, trimLeft_append starts first_shown, trimRight_append ends last_shown]

theorem mem_trimLeft (hc : c ∈ cs) : isBlank c = true ∨ c ∈ trimLeft cs := by
  rw [← List.takeWhile_append_dropWhile (p := isBlank) (l := cs)] at hc
  exact (List.mem_append.1 hc).imp_left fun taken => List.mem_takeWhile_imp taken

theorem mem_trimRight (hc : c ∈ cs) : isBlank c = true ∨ c ∈ trimRight cs := by
  rw [trimRight, List.mem_reverse]
  exact mem_trimLeft (List.mem_reverse.2 hc)

theorem mem_trim (hc : c ∈ cs) : isBlank c = true ∨ c ∈ trim cs := by
  rcases mem_trimLeft hc with blank | hc
  · exact .inl blank
  · exact mem_trimRight hc

end Text

namespace Ty

mutual

/-- The type without the names of its fields. -/
def unnamed : Ty → Ty
  | .array element length => .array element.unnamed length
  | .record fields => .record (unnamedEach fields)
  | t => t

def unnamedEach : List Field → List Field
  | [] => []
  | ⟨_, type⟩ :: rest => ⟨"", type.unnamed⟩ :: unnamedEach rest

end

end Ty

namespace Interface

mutual

/-- Tuples have no white space in front of their type strings, nor have the tuples in them. -/
def Param.Flush : Param → Prop
  | ⟨_, type, components⟩ => "tuple".toList <+: Text.trim type.toList →
      "tuple".toList <+: type.toList ∧ AllFlush components

def AllFlush : List Param → Prop
  | [] => True
  | p :: rest => p.Flush ∧ AllFlush rest

end

section Parts
open AtomText
variable {cs base rest suffix text : List Char} {body ty : Ty}

/-- A part of a signature: it can be cut out of what it stands in. -/
structure Part (text : List Char) : Prop where
  nonempty : text ≠ []
  balanced : Balanced text
  free : Free ',' text

def PlainText (cs : List Char) : Prop := ∀ c ∈ cs, c ≠ '(' ∧ c ≠ ')' ∧ c ≠ ','

theorem PlainText.balanced (h : PlainText cs) : Balanced cs :=
  nest_of_no_parens (fun c hc => ⟨(h c hc).1, (h c hc).2.1⟩) 0

theorem PlainText.free (h : PlainText cs) : Free ',' cs :=
  free_of_not_mem fun hm => (h _ hm).2.2 rfl

theorem plain_of_blank {c : Char} (h : Text.isBlank c = true) : c ≠ '(' ∧ c ≠ ')' ∧ c ≠ ',' := by
  refine ⟨?_, ?_, ?_⟩ <;> rintro rfl <;> exact absurd h (by decide)

theorem plain_of_alphanum {c : Char} (h : c.isAlphanum = true) : c ≠ '(' ∧ c ≠ ')' ∧ c ≠ ',' := by
  refine ⟨?_, ?_, ?_⟩ <;> rintro rfl <;> exact absurd h (by decide)

theorem Base.plainText (h : Base true base body) : PlainText base := by
  intro c hc
  rcases h.char hc with shown | ⟨_, rfl⟩
  · exact plain_of_alphanum shown
  · decide

theorem Suffixed.plainText (h : Suffixed true body rest ty) : PlainText rest := by
  intro c hc
  rcases h.char hc with shown | rfl | rfl | ⟨_, rfl⟩
  · exact plain_of_alphanum shown
  · decide
  · decide
  · decide

theorem PlainText.append (h : PlainText base) (h' : PlainText rest) : PlainText (base ++ rest) := by
  intro c hc
  exact (List.mem_append.1 hc).elim (h c) (h' c)

theorem PlainText.of_trim (h : PlainText (Text.trim cs)) : PlainText cs := by
  intro c hc
  exact (Text.mem_trim hc).elim plain_of_blank (h c)

theorem PlainText.of_trimRight (h : PlainText (Text.trimRight cs)) : PlainText cs := by
  intro c hc
  exact (Text.mem_trimRight hc).elim plain_of_blank (h c)

theorem PlainText.part (h : PlainText cs) (nonempty : cs ≠ []) : Part cs := ⟨nonempty, h.balanced, h.free⟩

theorem free_close (h : Balanced text) : Free ')' text := by
  rintro x y rfl balanced
  rw [balanced_append balanced] at h
  cases h

def joined (texts : List (List Char)) : List Char := [','].intercalate texts

theorem plain_comma : ∀ c ∈ [','], c ≠ '(' ∧ c ≠ ')' := by simp

theorem balanced_joined {texts : List (List Char)} (parts : ∀ text ∈ texts, Part text) : Balanced (joined texts) :=
  balanced_intercalate plain_comma fun text there => (parts text there).balanced

theorem joined_ne_nil {texts : List (List Char)} (parts : ∀ text ∈ texts, Part text) (some_ : texts ≠ []) :
    joined texts ≠ [] := by
  cases texts with
  | nil => exact absurd rfl some_
  | cons first others =>
    have shown := (parts first (by simp)).nonempty
    cases others with
    | nil => simpa [joined] using shown
    | cons second others => simp [joined, List.intercalate_cons_cons]

theorem joined_inj {texts texts' : List (List Char)} (parts : ∀ text ∈ texts, Part text)
    (parts' : ∀ text ∈ texts', Part text) (eq : joined texts = joined texts') : texts = texts' := by
  by_cases none_ : texts = []
  · subst none_
    by_contra some_
    exact joined_ne_nil parts' (Ne.symm some_) eq.symm
  · by_cases none_' : texts' = []
    · subst none_'
      exact absurd eq (joined_ne_nil parts none_)
    · exact intercalate_inj none_ none_' (fun text there => ⟨(parts text there).balanced, (parts text there).free⟩)
        (fun text there => ⟨(parts' text there).balanced, (parts' text there).free⟩) eq

theorem parens_inj {texts texts' : List (List Char)} {rest rest' : List Char} (parts : ∀ text ∈ texts, Part text)
    (parts' : ∀ text ∈ texts', Part text)
    (eq : '(' :: (joined texts ++ ')' :: rest) = '(' :: (joined texts' ++ ')' :: rest')) :
    texts = texts' ∧ rest = rest' := by
  have balanced := balanced_joined parts
  have balanced' := balanced_joined parts'
  obtain ⟨same, tail⟩ := split_unique balanced balanced' (free_close balanced) (free_close balanced') (List.cons.inj eq).2
  exact ⟨joined_inj parts parts' same, tail⟩

theorem part_parens {texts : List (List Char)} (parts : ∀ text ∈ texts, Part text) (plain : PlainText suffix) :
    Part ('(' :: (joined texts ++ ')' :: suffix)) := by
  have balanced := balanced_joined parts
  have split : '(' :: (joined texts ++ ')' :: suffix) = '(' :: (joined texts ++ [')']) ++ suffix := by simp
  have closed := balanced_parens balanced
  rw [split]
  refine ⟨by simp, (balanced_append closed).2 plain.balanced, ?_⟩
  exact free_append closed (free_parens balanced (by decide) (by decide)) plain.free

end Parts

section Spelling
variable {base rest suffix : List Char} {body ty : Ty} {name type : String} {components : List Param}

theorem Base.head_ne (h : Base true base body) : base.head? ≠ some 't' := by
  cases h with
  | word mem =>
    simp only [words, List.mem_cons, Prod.mk.injEq, List.not_mem_nil, or_false] at mem
    rcases mem with ⟨rfl, _⟩ | ⟨rfl, _⟩ | ⟨rfl, _⟩ | ⟨rfl, _⟩ | ⟨rfl, _⟩ | ⟨rfl, _⟩ | ⟨rfl, _⟩ <;> decide
  | integer mem _ _ =>
    simp only [integers, List.mem_cons, Prod.mk.injEq, List.not_mem_nil, or_false] at mem
    rcases mem with ⟨rfl, _⟩ | ⟨rfl, _⟩ <;> simp
  | fixedBytes _ _ => simp

theorem Base.ne_nil (h : Base true base body) : base ≠ [] := by
  rintro rfl
  cases base?_of_base h

theorem Base.not_tuple (h : Base true base body) {more : List Char} : base ++ rest ≠ "tuple".toList ++ more := by
  intro eq
  obtain ⟨c, base, rfl⟩ := List.exists_cons_of_ne_nil h.ne_nil
  obtain ⟨rfl, _⟩ := List.cons.inj eq
  exact h.head_ne rfl

theorem trim_tuple (cs : List Char) : Text.trim ("tuple".toList ++ cs) = "tuple".toList ++ Text.trimRight cs :=
  Text.trim_append rfl rfl (by decide) (by decide) cs

theorem Opens.trimRight (h : Opens rest) : Opens (Text.trimRight rest) := by
  rcases h with rfl | ⟨tail, rfl⟩
  · exact .inl rfl
  · have split : Text.trimRight (['['] ++ tail) = ['['] ++ Text.trimRight tail :=
      Text.trimRight_append rfl (by decide) tail
    exact .inr ⟨_, split⟩

theorem trim_integer {w : String} {kind : ElementaryKind} (mem : (w, kind) ∈ integers) (cs : List Char) :
    Text.trim (w.toList ++ cs) = w.toList ++ Text.trimRight cs ∧
      Text.trim ((w.toList ++ "256".toList) ++ cs) = (w.toList ++ "256".toList) ++ Text.trimRight cs := by
  simp only [integers, List.mem_cons, Prod.mk.injEq, List.not_mem_nil, or_false] at mem
  rcases mem with ⟨rfl, _⟩ | ⟨rfl, _⟩ <;>
    exact ⟨Text.trim_append rfl rfl (by decide) (by decide) cs, Text.trim_append rfl rfl (by decide) (by decide) cs⟩

theorem split_at_bracket {base' rest' : List Char} (closed : '[' ∉ base) (closed' : '[' ∉ base') (opens : Opens rest)
    (opens' : Opens rest') (eq : base ++ rest = base' ++ rest') : base = base' ∧ rest = rest' := by
  have parts := splitBase_append closed opens
  rw [eq, splitBase_append closed' opens'] at parts
  exact ⟨(Prod.mk.inj parts).1.symm, (Prod.mk.inj parts).2.symm⟩

theorem exists_widened {w : String} {kind : ElementaryKind} (mem : (w, kind) ∈ integers) (opens : Opens suffix)
    (text : Text.trim (w.toList ++ suffix) = base ++ rest) (based : Base true base body)
    (suffixed : Suffixed true body rest ty) :
    ∃ base', Text.trim ((w.toList ++ "256".toList) ++ suffix) = base' ++ rest ∧ Base true base' body := by
  have word : Base true w.toList (.ofWidth kind 256) := .word (word_of_integer mem)
  rw [(trim_integer mem suffix).1] at text
  obtain ⟨rfl, rfl⟩ := split_at_bracket word.shut based.shut opens.trimRight suffixed.opens text
  obtain rfl : body = .ofWidth kind 256 := Option.some.inj ((base?_of_base based).symm.trans (base?_of_base word))
  refine ⟨_, (trim_integer mem suffix).2, ?_⟩
  exact .integer mem (digits_toString 256) (by decide)

inductive Rendered (p : Param) (text : List Char) (ty : Ty) : Prop
  /-- By a type string for the same type. -/
  | elementary {base rest : List Char} {body : Ty} : Text.trim text = base ++ rest → Base true base body →
      Suffixed true body rest ty → Rendered p text ty
  /-- By its members in parentheses, and its suffixes. -/
  | tuple {suffix : List Char} {fields : List Field} : "tuple".toList <+: Text.trim p.type.toList →
      text = '(' :: (joined ((signatureTypes p.components).map String.toList) ++ ')' :: suffix) →
      Members true 0 p.components fields → Suffixed true (.record fields) (Text.trimRight suffix) ty →
      Rendered p text ty
  /-- By its type string, without its members. -/
  | indented {rest : List Char} {fields : List Field} : ¬ p.Flush → Text.trim text = "tuple".toList ++ rest →
      Suffixed true (.record fields) rest ty → Rendered p text ty

theorem signatureType_of_tuple (h : type.toList = "tuple".toList ++ suffix) :
    (signatureType ⟨name, type, components⟩).toList =
      '(' :: (joined ((signatureTypes components).map String.toList) ++ ')' :: suffix) := by
  rw [signatureType, after?_eq_some_iff.2 h]
  simp [joined, String.toList_intercalate]

theorem signatureType_of_not_tuple (h : ¬ "tuple".toList <+: type.toList) (name : String) (components : List Param) :
    signatureType ⟨name, type, components⟩ = type ∨
      ∃ w kind suffix, (w, kind) ∈ integers ∧ Opens suffix ∧ type.toList = w.toList ++ suffix ∧
        (signatureType ⟨name, type, components⟩).toList = (w.toList ++ "256".toList) ++ suffix := by
  have plain : after? "tuple".toList type.toList = none := by
    rw [Option.eq_none_iff_forall_ne_some]
    intro suffix found
    exact h ⟨suffix, (after?_eq_some_iff.1 found).symm⟩
  rw [signatureType, plain]
  have opens := opens_splitBase type.toList
  cases parts : splitBase type.toList with
  | mk base suffix =>
    have text := append_of_splitBase parts
    rw [parts] at opens
    simp only
    by_cases uint : base = "uint".toList
    · rw [if_pos uint]
      exact .inr ⟨"uint", .uint, suffix, by simp [integers], opens, uint ▸ text, by simp⟩
    · by_cases int : base = "int".toList
      · rw [if_neg uint, if_pos int]
        exact .inr ⟨"int", .int, suffix, by simp [integers], opens, int ▸ text, by simp⟩
      · rw [if_neg uint, if_neg int]
        exact .inl rfl

theorem rendered_signatureType (h : Spelled true ⟨name, type, components⟩ ty) :
    Rendered ⟨name, type, components⟩ (signatureType ⟨name, type, components⟩).toList ty := by
  by_cases starts : "tuple".toList <+: type.toList
  · obtain ⟨suffix, eq⟩ := starts
    have trimmed := trim_tuple suffix
    rw [eq] at trimmed
    cases h with
    | elementary text based suffixed => exact absurd (text.symm.trans trimmed) based.not_tuple
    | tuple text members suffixed =>
      have same := List.append_cancel_left (text.symm.trans trimmed)
      exact .tuple ⟨_, text.symm⟩ (signatureType_of_tuple eq.symm) members (same ▸ suffixed)
  · rcases signatureType_of_not_tuple starts name components with
      same | ⟨w, kind, suffix, mem, opens, eq, wide⟩
    · rw [same]
      cases h with
      | elementary text based suffixed => exact .elementary text based suffixed
      | tuple text members suffixed => exact .indented (fun flush => starts (flush ⟨_, text.symm⟩).1) text suffixed
    · rw [wide]
      cases h with
      | elementary text based suffixed =>
        rw [eq] at text
        obtain ⟨base', text', based'⟩ := exists_widened mem opens text based suffixed
        exact .elementary text' based' suffixed
      | tuple text members suffixed =>
        -- an integer does not begin like a tuple, trimmed or not
        have word : Base true w.toList (.ofWidth kind 256) := .word (word_of_integer mem)
        rw [eq, (trim_integer mem suffix).1] at text
        exact absurd text word.not_tuple

end Spelling

section Signatures
variable {body body' ty ty' : Ty} {rest : List Char}

theorem plainText_of_base {text base : List Char} (eq : Text.trim text = base ++ rest) (based : Base true base body)
    (suffixed : Suffixed true body rest ty) : PlainText text :=
  .of_trim (eq ▸ based.plainText.append suffixed.plainText)

theorem plainText_of_tuple {text : List Char} (eq : Text.trim text = "tuple".toList ++ rest)
    (suffixed : Suffixed true body rest ty) : PlainText text := by
  have word : PlainText "tuple".toList := by simp [PlainText]
  exact .of_trim (eq ▸ word.append suffixed.plainText)

mutual

theorem part_signatureType : (p : Param) → ∀ {ty : Ty}, Spelled true p ty → Part (signatureType p).toList
  | ⟨name, type, components⟩, ty, h => by
    cases rendered_signatureType h with
    | elementary text based suffixed =>
      refine (plainText_of_base text based suffixed).part fun none_ => based.ne_nil ?_
      rw [none_] at text
      exact (List.append_eq_nil_iff.1 text.symm).1
    | tuple _ text members suffixed =>
      rw [text]
      exact part_parens (part_signatureTypes components members) (.of_trimRight suffixed.plainText)
    | indented _ text suffixed =>
      refine (plainText_of_tuple text suffixed).part fun none_ => ?_
      rw [none_] at text
      cases text

theorem part_signatureTypes : (params : List Param) → ∀ {position : Nat} {fields : List Field},
    Members true position params fields → ∀ text ∈ (signatureTypes params).map String.toList, Part text
  | [], _, _, _ => by
    intro text there
    simp [signatureTypes] at there
  | ⟨name, type, components⟩ :: rest, _, _, h => by
    cases h with
    | cons spelled members =>
      intro text there
      rw [signatureTypes, List.map_cons] at there
      rcases List.mem_cons.1 there with rfl | there
      · exact part_signatureType ⟨name, type, components⟩ spelled
      · exact part_signatureTypes rest members text there

end

theorem Suffixed.unnamed (h : Suffixed true body rest ty) (h' : Suffixed true body' rest ty')
    (same : body.unnamed = body'.unnamed) : ty.unnamed = ty'.unnamed := by
  obtain ⟨lengths, read, rfl⟩ := (suffixed_iff h.opens).1 h
  obtain ⟨lengths', read', rfl⟩ := (suffixed_iff h'.opens).1 h'
  cases read.symm.trans read'
  clear * - same
  rw [arrays, arrays]
  induction lengths generalizing body body' with
  | nil => exact same
  | cons length lengths ih =>
    refine ih ?_
    rw [Ty.unnamed, Ty.unnamed, same]

theorem not_plainText {texts : List Char} : ¬ PlainText ('(' :: texts) := by
  intro plain
  exact (plain '(' List.mem_cons_self).1 rfl

-- By recursion on the first parameter and its components. The second one may be anything that is spelled alike.
mutual

theorem unnamed_of_signatureType : (p : Param) → ∀ {q : Param} {ty ty' : Ty}, Spelled true p ty → Spelled true q ty' →
    p.Flush → signatureType p = signatureType q → ty.unnamed = ty'.unnamed
  | ⟨name, type, components⟩, ⟨name', type', components'⟩, ty, ty', h, h', flush, same => by
    have shown := rendered_signatureType h'
    rw [← same] at shown
    cases rendered_signatureType h with
    | indented ragged _ _ => exact absurd flush ragged
    | elementary text based suffixed =>
      have plain := plainText_of_base text based suffixed
      cases shown with
      | elementary text' based' suffixed' =>
        obtain ⟨rfl, rfl⟩ :=
          split_at_bracket based.shut based'.shut suffixed.opens suffixed'.opens (text.symm.trans text')
        cases (base?_of_base based).symm.trans (base?_of_base based')
        exact suffixed.unnamed suffixed' rfl
      | tuple _ text' _ _ => exact absurd (text' ▸ plain) not_plainText
      | indented _ text' _ => exact absurd (text.symm.trans text') based.not_tuple
    | tuple starts text members suffixed =>
      rw [text] at shown
      cases shown with
      | elementary text' based' suffixed' => exact absurd (plainText_of_base text' based' suffixed') not_plainText
      | tuple _ text' members' suffixed' =>
        obtain ⟨texts, rfl⟩ := parens_inj (part_signatureTypes components members)
          (part_signatureTypes components' members') text'
        have types := (List.map_inj_right fun _ _ => String.toList_inj.1).1 texts
        have fields := unnamed_of_signatureTypes components members members' (flush starts).2 types
        refine suffixed.unnamed suffixed' ?_
        rw [Ty.unnamed, Ty.unnamed, fields]
      | indented _ text' suffixed' => exact absurd (plainText_of_tuple text' suffixed') not_plainText

theorem unnamed_of_signatureTypes : (params : List Param) → ∀ {params' : List Param} {position position' : Nat}
    {fields fields' : List Field}, Members true position params fields → Members true position' params' fields' →
    AllFlush params → signatureTypes params = signatureTypes params' → Ty.unnamedEach fields = Ty.unnamedEach fields'
  | [], _, _, _, _, _, h, h', _, same => by
    cases h
    cases h' with
    | nil => rfl
    | cons _ _ => cases same
  | ⟨name, type, components⟩ :: rest, _, _, _, _, _, h, h', flush, same => by
    cases h with
    | cons spelled members =>
      cases h' with
      | nil => cases same
      | cons spelled' members' =>
        obtain ⟨first, others⟩ := List.cons.inj same
        rw [Ty.unnamedEach, Ty.unnamedEach,
          unnamed_of_signatureType ⟨name, type, components⟩ spelled spelled' flush.1 first,
          unnamed_of_signatureTypes rest members members' flush.2 others]

end

/-- A signature gives back the types of its parameters, if only one of two that are alike is spelled flush. -/
theorem unnamed_of_signature {name : String} {params params' : List Param} {fields fields' : List Field}
    (h : Members true 0 params fields) (h' : Members true 0 params' fields') (flush : AllFlush params)
    (same : signature name params = signature name params') : Ty.unnamedEach fields = Ty.unnamedEach fields' := by
  have text (params : List Param) : (signature name params).toList =
      name.toList ++ '(' :: (joined ((signatureTypes params).map String.toList) ++ [')']) := by
    simp [signature, joined, String.toList_intercalate]
  have eq := congrArg String.toList same
  rw [text, text] at eq
  obtain ⟨texts, _⟩ :=
    parens_inj (part_signatureTypes params h) (part_signatureTypes params' h') (List.append_cancel_left eq)
  exact unnamed_of_signatureTypes params h h' flush ((List.map_inj_right fun _ _ => String.toList_inj.1).1 texts)

end Signatures

section Functions
variable {entries entries' : List Entry} {fs : List Signature}

/-- What a callable entry becomes among all of them: a function under its name, if its parameters have types. -/
def functionOf (entries : List Entry) (c : String × Entry) : Except ParamError Signature := do
  return ⟨functionName ((callable entries).map Prod.fst) c.1 c.2, ← fields c.2.inputs⟩

theorem functions_eq (entries : List Entry) : functions entries = (callable entries).mapM (functionOf entries) := rfl

theorem functionOf_perm (perm : entries'.Perm entries) : functionOf entries' = functionOf entries := by
  funext c
  have names : ((callable entries').map Prod.fst).Perm ((callable entries).map Prod.fst) :=
    (perm.filterMap _).map _
  rw [functionOf, functionOf, functionName, functionName, names.count_eq c.1]

theorem functionOf_ok {c : String × Entry} {f : Signature} (h : functionOf entries c = .ok f) :
    f.name = functionName ((callable entries).map Prod.fst) c.1 c.2 ∧ fields c.2.inputs = .ok f.params := by
  obtain ⟨params, read, h⟩ := exists_of_bind_ok h
  cases h
  exact ⟨rfl, read⟩

/-- Accepted entries become functions each by itself, and keep doing so in any order. -/
theorem exists_functionOf (accepted : functions entries = .ok fs) :
    ∃ g : String × Entry → Signature, (∀ c ∈ callable entries, functionOf entries c = .ok (g c)) ∧
      ∀ entries', entries'.Perm entries → functions entries' = .ok ((callable entries').map g) := by
  have found : ∀ c ∈ callable entries, functionOf entries c = .ok ((functionOf entries c).toOption.getD ⟨"", []⟩) := by
    intro c hc
    obtain ⟨f, _, ok⟩ := exists_left_of_forall₂ (mapM_ok_iff.1 accepted).flip hc
    rw [show functionOf entries c = .ok f from ok]
    rfl
  refine ⟨fun c => (functionOf entries c).toOption.getD ⟨"", []⟩, found, fun entries' perm => ?_⟩
  rw [functions_eq, functionOf_perm perm]
  exact mapM_ok_of_forall fun c hc => found c ((perm.filterMap _).subset hc)

theorem one_lt_count {c d : String × Entry} (hc : c ∈ callable entries) (hd : d ∈ callable entries) (same : c.1 = d.1)
    (other : c ≠ d) : 1 < ((callable entries).map Prod.fst).count c.1 := by
  have counted : ((callable entries).map Prod.fst).count c.1 =
      ((callable entries).filter fun e => e.1 == c.1).length := by
    rw [List.count, List.countP_map, List.countP_eq_length_filter]
    rfl
  have first : c ∈ (callable entries).filter fun e => e.1 == c.1 := List.mem_filter.2 ⟨hc, by simp⟩
  have second : d ∈ (callable entries).filter fun e => e.1 == c.1 := List.mem_filter.2 ⟨hd, by simp [same]⟩
  rw [counted]
  by_contra few
  generalize (callable entries).filter (fun e => e.1 == c.1) = alike at first second few
  cases alike with
  | nil => cases first
  | cons e others =>
    cases others with
    | nil => exact other ((List.mem_singleton.1 first).trans (List.mem_singleton.1 second).symm)
    | cons _ _ => simp at few

/-- Entries of one name with different types have different signatures, if one of the two is spelled flush. -/
theorem signature_ne {c d : String × Entry} {params params' : List Field} (read : fields c.2.inputs = .ok params)
    (read' : fields d.2.inputs = .ok params') (same : c.1 = d.1) (flush : AllFlush c.2.inputs ∨ AllFlush d.2.inputs)
    (differ : Ty.unnamedEach params ≠ Ty.unnamedEach params') : signature c.1 c.2.inputs ≠ signature d.1 d.2.inputs := by
  have spelled := (fieldsFrom_ok_iff c.2.inputs 0 params).1 read
  have spelled' := (fieldsFrom_ok_iff d.2.inputs 0 params').1 read'
  rw [same]
  intro alike
  rcases flush with flush | flush
  · exact differ (unnamed_of_signature spelled spelled' flush alike)
  · exact differ (unnamed_of_signature spelled' spelled flush alike.symm).symm

end Functions

/-- Each callable entry of an accepted list becomes a function of its own, the same in whatever order the entries are
listed. If two of them have one name and parameters of different types, whatever the names in these, their functions
have different names, unless both have a tuple with white space in front of its type string. -/
theorem overloads_told_apart {entries : List Entry} {fs : List Signature} (accepted : functions entries = .ok fs) :
    ∃ g : String × Entry → Signature, fs = (callable entries).map g ∧
      (∀ c ∈ callable entries, fields c.2.inputs = .ok (g c).params) ∧
      (∀ entries', entries'.Perm entries → functions entries' = .ok ((callable entries').map g)) ∧
      ∀ c ∈ callable entries, ∀ d ∈ callable entries, c.1 = d.1 → AllFlush c.2.inputs ∨ AllFlush d.2.inputs →
        Ty.unnamedEach (g c).params ≠ Ty.unnamedEach (g d).params → (g c).name ≠ (g d).name := by
  obtain ⟨g, found, orders⟩ := exists_functionOf accepted
  have whole : fs = (callable entries).map g := Except.ok.inj (accepted.symm.trans (orders entries (.refl _)))
  refine ⟨g, whole, fun c hc => (functionOf_ok (found c hc)).2, orders, ?_⟩
  intro c hc d hd same flush differ
  obtain ⟨name, read⟩ := functionOf_ok (found c hc)
  obtain ⟨name', read'⟩ := functionOf_ok (found d hd)
  have other : c ≠ d := by
    rintro rfl
    exact differ rfl
  have more := one_lt_count hc hd same other
  rw [name, name', functionName, functionName, ← same, if_pos more, if_pos more]
  have apart := signature_ne read read' same flush differ
  rwa [← same] at apart

/-- Two functions and a constructor under one name, told apart in either order. -/
theorem overloads_told_apart_constructors :
    let array : Entry := ⟨"function", "constructor", [⟨"a", "uint[]", []⟩]⟩
    let tuple : Entry := ⟨"function", "constructor", [⟨"p", "tuple", [⟨"x", "int16", []⟩]⟩]⟩
    let maker : Entry := ⟨"constructor", "", [⟨"", "tuple[2] ", [⟨"", "int16", []⟩]⟩]⟩
    ∃ g : String × Entry → Signature,
      functions [array, tuple, maker] =
        .ok [g ("constructor", array), g ("constructor", tuple), g ("constructor", maker)] ∧
      functions [maker, tuple, array] =
        .ok [g ("constructor", maker), g ("constructor", tuple), g ("constructor", array)] ∧
      (g ("constructor", tuple)).name ≠ (g ("constructor", maker)).name := by
  intro array tuple maker
  have accepted : functions [array, tuple, maker] = .ok [
      ⟨"constructor(uint256[])", [⟨"a", .array (.uint 256) none⟩]⟩,
      ⟨"constructor((int16))", [⟨"p", .record [⟨"x", .int 16⟩]⟩]⟩,
      ⟨"constructor((int16)[2] )", [⟨"_0", .array (.record [⟨"_0", .int 16⟩]) (some 2)⟩]⟩] := rfl
  obtain ⟨g, whole, _, orders, apart⟩ := overloads_told_apart accepted
  have whole : _ = [g ("constructor", array), g ("constructor", tuple), g ("constructor", maker)] := whole
  have second := (List.cons.inj (List.cons.inj whole).2).1
  have third := (List.cons.inj (List.cons.inj (List.cons.inj whole).2).2).1
  refine ⟨g, whole ▸ accepted, orders _ (List.reverse_perm [array, tuple, maker]), ?_⟩
  refine apart ("constructor", tuple) (List.mem_of_getElem? (i := 1) rfl) ("constructor", maker)
    (List.mem_of_getElem? (i := 2) rfl) rfl (.inl ?_) ?_
  · exact ⟨fun _ => ⟨by decide, fun spelled => absurd spelled (by decide), trivial⟩, trivial⟩
  · rw [← second, ← third]
    simp [Ty.unnamedEach, Ty.unnamed]

/-- Two functions whose tuples have different members and white space in front get one name. -/
theorem overloads_share_name :
    functions [⟨"function", "f", [⟨"a", " tuple", [⟨"x", "uint8", []⟩]⟩]⟩,
        ⟨"function", "f", [⟨"a", " tuple", [⟨"x", "bool", []⟩]⟩]⟩] =
      .ok [⟨"f( tuple)", [⟨"a", .record [⟨"x", .uint 8⟩]⟩]⟩, ⟨"f( tuple)", [⟨"a", .record [⟨"x", .bool⟩]⟩]⟩] ∧
    Ty.unnamedEach [⟨"a", .record [⟨"x", .uint 8⟩]⟩] ≠ Ty.unnamedEach [⟨"a", .record [⟨"x", .bool⟩]⟩] := by
  refine ⟨rfl, fun same => ?_⟩
  simp [Ty.unnamedEach, Ty.unnamed, Ty.uint, Ty.bool, Ty.ofWidth] at same

end Interface

end Calldata

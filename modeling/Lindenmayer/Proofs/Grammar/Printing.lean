import Mathlib.Data.List.Basic
import Lindenmayer.Grammar.Reader
import Lindenmayer.Proofs.Decimal.RoundTrip

/-!
# Printing rules and reading them

Alternatives that are well formed are read back from their written form, one by one and in order,
and every text is read as alternatives that are well formed.  So printing what was read, and reading
it again, changes nothing.
-/

namespace Lindenmayer

/-- A name that can be written among others: it is not empty and holds neither blanks nor
semicolons. -/
structure Name.IsWritable (name : Name) : Prop where
  field : Text.IsField name.chars
  undivided : ';' ∉ name.chars

namespace Alternative

/-- What can be written as an alternative and read back.  Without a catalyst, the first successor
must not look like one. -/
structure WellFormed (alternative : Alternative) : Prop where
  weight : isWritableWeight alternative.weight = true
  names : ∀ name ∈ alternative.references, name.IsWritable
  unmarked : alternative.catalyst = none → ∀ name rest, alternative.successors = name :: rest →
    name.chars.head? ≠ some '*'

/-! ### What is read -/

theorem isWritableWeight_of_weight? {field : List Char} {weight : Float}
    (read : weight? field = some weight) : isWritableWeight weight = true := by
  unfold weight? at read
  split at read
  · rename_i value _
    split at read
    · rename_i writable
      exact Option.some.inj read ▸ writable
    · cases read
  · cases read

theorem wellFormed_of_ofFields {weight : Float} (writable : isWritableWeight weight = true)
    {fields : List (List Char)} (isField : ∀ field ∈ fields, Text.IsField field ∧ ';' ∉ field)
    {alternative : Alternative} (read : ofFields weight fields = some alternative) :
    alternative.WellFormed := by
  have names : ∀ list : List (List Char), (∀ field ∈ list, Text.IsField field ∧ ';' ∉ field) →
      ∀ name ∈ list.map Name.ofChars, name.IsWritable := by
    intro list given name member
    obtain ⟨field, inside, rfl⟩ := List.mem_map.mp member
    obtain ⟨isField, undivided⟩ := given field inside
    exact ⟨by rwa [Name.chars_ofChars], by rwa [Name.chars_ofChars]⟩
  unfold ofFields at read
  split at read
  · cases read
  · -- The asterisk is no part of the catalyst, and something is left without it.
    rename_i name rest bare
    obtain rfl := Option.some.inj read
    obtain ⟨⟨⟨-, marked⟩, undivided⟩, later⟩ := List.forall_mem_cons.mp isField
    refine ⟨writable, ?_, fun absent => nomatch absent⟩
    refine List.forall_mem_cons.mpr ⟨⟨⟨?_, ?_⟩, ?_⟩, names rest later⟩
    · rw [Name.chars_ofChars]
      exact bare
    · rw [Name.chars_ofChars]
      exact fun c inside => marked c (List.mem_cons_of_mem _ inside)
    · rw [Name.chars_ofChars]
      exact fun inside => undivided (List.mem_cons_of_mem _ inside)
  · rename_i unmarked
    obtain rfl := Option.some.inj read
    refine ⟨writable, names fields isField, ?_⟩
    intro _ name rest successors star
    obtain ⟨field, later, rfl, rfl, -⟩ := List.map_eq_cons_iff.mp successors
    rw [Name.chars_ofChars] at star
    obtain ⟨name, rfl⟩ := List.head?_eq_some_iff.mp star
    exact unmarked name later rfl

theorem wellFormed_of_parse? {group : List Char} (undivided : ';' ∉ group)
    {alternative : Alternative} (read : parse? group = some alternative) :
    alternative.WellFormed := by
  have isField : ∀ field ∈ Text.fields group, Text.IsField field ∧ ';' ∉ field :=
    fun field member => ⟨Text.isField_of_mem_fields member,
      fun inside => undivided (Text.mem_of_mem_fields member inside)⟩
  unfold parse? at read
  split at read
  · cases read
  · rename_i first fields split
    rw [split] at isField
    obtain ⟨weight, readWeight, readFields⟩ := Option.bind_eq_some_iff.mp read
    exact wellFormed_of_ofFields (isWritableWeight_of_weight? readWeight)
      (List.forall_mem_cons.mp isField).2 readFields

/-- Whatever is read is well formed. -/
theorem wellFormed_of_mem_parseAll {text : String} {alternative : Alternative}
    (member : alternative ∈ parseAll text) : alternative.WellFormed := by
  obtain ⟨group, piece, read⟩ := List.mem_filterMap.mp member
  rw [List.splitOn_eq_splitOnP] at piece
  refine wellFormed_of_parse? (fun inside => ?_) read
  simpa using (Text.mem_of_mem_splitOnP piece inside).2

/-! ### What is written -/

/-- The fields of the written form, as characters. -/
def fieldChars (alternative : Alternative) : List (List Char) :=
  (Decimal.text alternative.weight).toList ::
    (alternative.catalyst.toList.map fun name => '*' :: name.chars) ++
      alternative.successors.map Name.chars

theorem toList_text (alternative : Alternative) :
    alternative.text.toList = [' '].intercalate alternative.fieldChars := by
  have same : alternative.fields.map String.toList = alternative.fieldChars := by
    simp [fields, fieldChars, Name.chars, Function.comp_def]
  rw [text, String.toList_intercalate, same]
  rfl

theorem isFinite_of_isWritableWeight {weight : Float} (writable : isWritableWeight weight = true) :
    weight.isFinite = true :=
  ((Bool.and_eq_true _ _).mp writable).1

theorem ofFields_cons_star (weight : Float) {name : List Char} (nonempty : name ≠ [])
    (fields : List (List Char)) :
    ofFields weight (('*' :: name) :: fields) =
      some ⟨weight, some (Name.ofChars name), fields.map Name.ofChars⟩ := by
  obtain ⟨c, rest, rfl⟩ := List.exists_cons_of_ne_nil nonempty
  rfl

theorem ofFields_of_unmarked (weight : Float) {fields : List (List Char)}
    (unmarked : ∀ field rest, fields = field :: rest → field.head? ≠ some '*') :
    ofFields weight fields = some ⟨weight, none, fields.map Name.ofChars⟩ := by
  unfold ofFields
  split
  · exact absurd rfl (unmarked _ _ rfl)
  · exact absurd rfl (unmarked _ _ rfl)
  · rfl

namespace WellFormed

variable {alternative : Alternative} (wellFormed : alternative.WellFormed)
include wellFormed

/-- Nothing in a written field separates fields or alternatives. -/
theorem isField {field : List Char} (member : field ∈ alternative.fieldChars) :
    Text.IsField field ∧ ';' ∉ field := by
  rcases List.mem_append.mp member with member | member
  · rcases List.mem_cons.mp member with rfl | member
    · exact Decimal.isField_text (isFinite_of_isWritableWeight wellFormed.weight)
    · obtain ⟨name, listed, rfl⟩ := List.mem_map.mp member
      obtain ⟨⟨-, marked⟩, undivided⟩ := wellFormed.names name (List.mem_append_left _ listed)
      refine ⟨⟨List.cons_ne_nil _ _, ?_⟩, ?_⟩
      · exact List.forall_mem_cons.mpr ⟨by decide, marked⟩
      · simp [undivided]
  · obtain ⟨name, listed, rfl⟩ := List.mem_map.mp member
    obtain ⟨isField, undivided⟩ := wellFormed.names name (List.mem_append_right _ listed)
    exact ⟨isField, undivided⟩

theorem fields_text : Text.fields alternative.text.toList = alternative.fieldChars := by
  rw [toList_text]
  exact Text.fields_intercalate fun field member => (wellFormed.isField member).1

/-- The fields behind the weight are read back. -/
theorem ofFields_eq :
    ofFields alternative.weight ((alternative.catalyst.toList.map fun name => '*' :: name.chars) ++
      alternative.successors.map Name.chars) = some alternative := by
  obtain ⟨-, names, unmarked⟩ := wellFormed
  obtain ⟨weight, catalyst, successors⟩ := alternative
  have restored : (successors.map Name.chars).map Name.ofChars = successors := by
    simp [Function.comp_def]
  cases catalyst with
  | some name =>
    have nonempty := (names name List.mem_cons_self).field.1
    have marked := ofFields_cons_star weight nonempty (successors.map Name.chars)
    rwa [restored, Name.ofChars_chars] at marked
  | none =>
    have plain : ∀ field rest, successors.map Name.chars = field :: rest →
        field.head? ≠ some '*' := by
      intro field rest split
      obtain ⟨name, later, rfl, rfl, -⟩ := List.map_eq_cons_iff.mp split
      exact unmarked rfl name later rfl
    have unmarked := ofFields_of_unmarked weight plain
    rwa [restored] at unmarked

/-- The written form is read back. -/
theorem parse?_text : parse? alternative.text.toList = some alternative := by
  have reads := Decimal.read?_text_eq_some (isFinite_of_isWritableWeight wellFormed.weight)
  unfold parse?
  rw [wellFormed.fields_text]
  simp [fieldChars, weight?, reads, wellFormed.weight, wellFormed.ofFields_eq]

end WellFormed

/-! ### Lists of alternatives -/

theorem intercalate_semicolon_blank (first : List Char) (rest : List (List Char)) :
    [';', ' '].intercalate (first :: rest) =
      [';'].intercalate (first :: rest.map fun group => ' ' :: group) := by
  induction rest generalizing first with
  | nil => simp
  | cons second rest ih =>
    rw [List.intercalate_cons_cons, List.map_cons, List.intercalate_cons_cons, ih,
      List.intercalate_cons_cons_left]
    simp

/-- A blank in front of a group makes no difference. -/
theorem parse?_cons_blank (group : List Char) : parse? (' ' :: group) = parse? group := by
  unfold parse?
  rw [Text.fields_cons (by decide)]

/-- Groups without semicolons and line breaks are read one by one. -/
theorem parseChars_intercalate {groups : List (List Char)}
    (undivided : ∀ group ∈ groups, ∀ c ∈ group, c ≠ ';' ∧ isLineBreak c = false) :
    parseChars ([';', ' '].intercalate groups) = groups.filterMap parse? := by
  cases groups with
  | nil => rfl
  | cons first rest =>
    have kept : ∀ c ∈ [';', ' '].intercalate (first :: rest), (!isLineBreak c) = true := by
      refine Text.forall_mem_intercalate (by simp [isLineBreak]) ?_
      intro group member c inside
      rw [(undivided group member c inside).2]
      rfl
    have pieces : ∀ group ∈ first :: rest.map fun group => ' ' :: group, ';' ∉ group := by
      obtain ⟨here, later⟩ := List.forall_mem_cons.mp undivided
      refine List.forall_mem_cons.mpr ⟨fun inside => (here _ inside).1 rfl, ?_⟩
      intro group member
      obtain ⟨bare, listed, rfl⟩ := List.mem_map.mp member
      simpa using fun inside => (later bare listed _ inside).1 rfl
    rw [parseChars, List.filter_eq_self.mpr kept, intercalate_semicolon_blank,
      List.splitOn_intercalate _ pieces (List.cons_ne_nil _ _), List.filterMap_cons,
      List.filterMap_cons, List.filterMap_map]
    simp only [Function.comp_def, parse?_cons_blank]

theorem WellFormed.undivided {alternative : Alternative} (wellFormed : alternative.WellFormed) :
    ∀ c ∈ alternative.text.toList, c ≠ ';' ∧ isLineBreak c = false := by
  rw [toList_text]
  refine Text.forall_mem_intercalate (by simp [isLineBreak]) ?_
  intro field member c inside
  obtain ⟨⟨-, unbroken⟩, undivided⟩ := wellFormed.isField member
  refine ⟨fun semicolon => undivided (semicolon ▸ inside), ?_⟩
  have notBlank := unbroken c inside
  unfold isLineBreak
  rw [Bool.or_eq_false_iff, beq_eq_false_iff_ne, beq_eq_false_iff_ne]
  constructor
  · rintro rfl
    exact absurd notBlank (by decide)
  · rintro rfl
    exact absurd notBlank (by decide)

/-- The written form of well-formed alternatives is read back. -/
theorem parseAll_textAll {alternatives : List Alternative}
    (wellFormed : ∀ alternative ∈ alternatives, alternative.WellFormed) :
    parseAll (textAll alternatives) = alternatives := by
  have groups : (textAll alternatives).toList =
      [';', ' '].intercalate (alternatives.map fun alternative => alternative.text.toList) := by
    rw [textAll, String.toList_intercalate, List.map_map]
    rfl
  rw [parseAll, groups, parseChars_intercalate, List.filterMap_map]
  · exact (List.filterMap_congr fun alternative member =>
      (wellFormed alternative member).parse?_text).trans List.filterMap_some
  · intro group member
    obtain ⟨alternative, listed, rfl⟩ := List.mem_map.mp member
    exact (wellFormed alternative listed).undivided

/-- Reading undoes writing.  Every text is read as alternatives that are well formed, a rule of
well-formed alternatives is read back from its text, and so reading, writing and reading again is
the same as reading once. -/
theorem reading_inverts_writing :
    (∀ text : String, ∀ alternative ∈ parseAll text, alternative.WellFormed) ∧
    (∀ rule : Rule, (∀ alternative ∈ rule.alternatives, alternative.WellFormed) →
      parseAll rule.text = rule.alternatives) ∧
    ∀ text : String, parseAll (textAll (parseAll text)) = parseAll text := by
  have read : ∀ text : String, ∀ alternative ∈ parseAll text, alternative.WellFormed :=
    fun _ _ member => wellFormed_of_mem_parseAll member
  exact ⟨read, fun _ wellFormed => parseAll_textAll wellFormed,
    fun text => parseAll_textAll (read text)⟩

/-- A catalyst that starts with an asterisk itself, an alternative without successors, one with a
successor that looks like a catalyst, and two that are left out. -/
theorem reading_inverts_writing_asterisks :
    ∃ rule : Rule, rule.alternatives = parseAll "0.50 **x *y\n; -0 ;bad; 2 b *c; 1 *" ∧
      (∀ alternative ∈ rule.alternatives, alternative.WellFormed) ∧
      rule.text = "0.5 **x *y; -0; 2 b *c" ∧
      parseAll "0.5 **x *y; -0; 2 b *c" = rule.alternatives := by
  have counted : (parseAll "0.50 **x *y\n; -0 ;bad; 2 b *c; 1 *").length = 3 := by decide +kernel
  have nonempty : parseAll "0.50 **x *y\n; -0 ;bad; 2 b *c; 1 *" ≠ [] :=
    List.ne_nil_of_length_pos (counted ▸ Nat.zero_lt_succ 2)
  have written : textAll (parseAll "0.50 **x *y\n; -0 ;bad; 2 b *c; 1 *") =
      "0.5 **x *y; -0; 2 b *c" := by decide +kernel
  obtain ⟨read, back, -⟩ := reading_inverts_writing
  have restored := back ⟨⟨"A"⟩, _, nonempty⟩ (read _)
  rw [Rule.text, written] at restored
  exact ⟨⟨⟨"A"⟩, _, nonempty⟩, rfl, read _, written, restored⟩

end Alternative

end Lindenmayer

import Mathlib.Data.List.Basic
import Mathlib.Logic.Relation
import Lindenmayer.Grammar.Reader
import Lindenmayer.Proofs.Text.Fields

/-!
# Groups of a rule body

A rule body is read group by group.  What stands between two semicolons gives one alternative or
none, and neither the groups around it nor line breaks, wherever they are, make a difference to it.
-/

namespace Lindenmayer.Alternative

/-- What stands between the semicolons of a rule body, line breaks included. -/
def groups (text : String) : List String := (text.toList.splitOn ';').map String.ofList

/-- A text without its line breaks. -/
def unbroken (cs : List Char) : List Char := cs.filter fun c => !isLineBreak c

/-- One text is another one with a line break put in somewhere. -/
inductive BreaksInto : String → String → Prop
  | insert (front back : String) {c : Char} : isLineBreak c = true →
    BreaksInto (front ++ back) (front ++ String.singleton c ++ back)

/-! ### Line breaks -/

theorem parseChars_eq (cs : List Char) :
    parseChars cs = ((unbroken cs).splitOn ';').filterMap parse? := rfl

theorem unbroken_append (cs ds : List Char) : unbroken (cs ++ ds) = unbroken cs ++ unbroken ds :=
  List.filter_append _ _

/-- Semicolons are no line breaks. -/
theorem unbroken_semicolon_cons (cs : List Char) : unbroken (';' :: cs) = ';' :: unbroken cs := rfl

theorem unbroken_lineBreak_cons {c : Char} (lineBreak : isLineBreak c = true) (cs : List Char) :
    unbroken (c :: cs) = unbroken cs :=
  List.filter_cons_of_neg (by simp [lineBreak])

theorem mem_of_mem_unbroken {cs : List Char} {c : Char} (member : c ∈ unbroken cs) : c ∈ cs :=
  List.mem_of_mem_filter member

/-- Putting in a line break changes nothing once line breaks are dropped. -/
theorem BreaksInto.unbroken_eq {text broken : String} (breaks : BreaksInto text broken) :
    unbroken broken.toList = unbroken text.toList := by
  obtain ⟨front, back, lineBreak⟩ := breaks
  simp only [String.toList_append, String.toList_singleton, unbroken_append]
  rw [unbroken_lineBreak_cons lineBreak]
  simp [unbroken]

/-- Line breaks may be put in and taken out at any places, any number of times. -/
theorem parseAll_eq_of_eqvGen {text other : String}
    (related : Relation.EqvGen BreaksInto text other) : parseAll text = parseAll other := by
  have same : unbroken text.toList = unbroken other.toList := by
    induction related with
    | rel _ _ breaks => exact breaks.unbroken_eq.symm
    | refl => rfl
    | symm _ _ _ ih => exact ih.symm
    | trans _ _ _ _ _ first second => exact first.trans second
  rw [parseAll, parseAll, parseChars_eq, parseChars_eq, same]

/-! ### Semicolons -/

/-- What stands before a semicolon and what stands behind it are read on their own. -/
theorem parseChars_append_semicolon (cs ds : List Char) :
    parseChars (cs ++ ';' :: ds) = parseChars cs ++ parseChars ds := by
  have apart := List.splitOnP_append_cons (p := (· == ';')) (unbroken cs) (unbroken ds)
    (beq_self_eq_true ';')
  simp only [parseChars_eq, unbroken_append, unbroken_semicolon_cons, List.splitOn_eq_splitOnP]
  rw [apart, List.filterMap_append]

theorem parseAll_append_semicolon (a b : String) :
    parseAll (a ++ ";" ++ b) = parseAll a ++ parseAll b := by
  have semicolon : (a ++ ";" ++ b).toList = a.toList ++ ';' :: b.toList := by
    rw [String.toList_append, String.toList_append, List.append_assoc]
    rfl
  rw [parseAll, semicolon]
  exact parseChars_append_semicolon a.toList b.toList

theorem parseChars_intercalate_semicolon {pieces : List (List Char)} (nonempty : pieces ≠ []) :
    parseChars ([';'].intercalate pieces) = pieces.flatMap parseChars := by
  induction pieces with
  | nil => exact absurd rfl nonempty
  | cons first rest ih =>
    cases rest with
    | nil => rw [List.intercalate_singleton, List.flatMap_singleton]
    | cons second rest =>
      rw [List.intercalate_cons_cons, List.append_assoc, List.singleton_append,
        parseChars_append_semicolon, ih (List.cons_ne_nil second rest)]
      rfl

/-- A body is read as its groups are, one after another. -/
theorem parseAll_eq_flatMap_groups (text : String) :
    parseAll text = (groups text).flatMap parseAll := by
  have pieces := parseChars_intercalate_semicolon (List.splitOn_ne_nil ';' text.toList)
  rw [List.intercalate_splitOn] at pieces
  rw [parseAll, pieces, groups, List.flatMap_map]
  simp only [parseAll, String.toList_ofList]

/-! ### Single groups -/

/-- Without semicolons there is one group to be read. -/
theorem parseChars_of_undivided {cs : List Char} (undivided : ';' ∉ cs) :
    parseChars cs = (parse? (unbroken cs)).toList := by
  have single : (unbroken cs).splitOn ';' = [unbroken cs] := by
    rw [List.splitOn_eq_splitOnP]
    refine List.splitOnP_eq_singleton fun c inside => beq_eq_false_iff_ne.mpr ?_
    rintro rfl
    exact undivided (mem_of_mem_unbroken inside)
  rw [parseChars_eq, single]
  cases read : parse? (unbroken cs) <;> simp [read]

theorem not_mem_of_mem_groups {text group : String} (member : group ∈ groups text) :
    ';' ∉ group.toList := by
  obtain ⟨piece, inside, rfl⟩ := List.mem_map.mp member
  rw [List.splitOn_eq_splitOnP] at inside
  rw [String.toList_ofList]
  exact fun semicolon => by simpa using (Text.mem_of_mem_splitOnP inside semicolon).2

/-- A group gives at most one alternative. -/
theorem parseAll_of_mem_groups {text group : String} (member : group ∈ groups text) :
    parseAll group = [] ∨ ∃ alternative, parseAll group = [alternative] := by
  rw [parseAll, parseChars_of_undivided (not_mem_of_mem_groups member)]
  cases parse? (unbroken group.toList) with
  | none => exact Or.inl rfl
  | some alternative => exact Or.inr ⟨alternative, rfl⟩

/-- Each group of a rule body is read on its own.  At a semicolon the reading of a body falls apart
into two, line breaks put in or taken out anywhere change nothing, and what is read is made up of
what each group gives when nothing else is there: one alternative or none.  So a body with a group
that cannot be read is read as if this group were left out. -/
theorem groups_read_apart :
    (∀ a b : String, parseAll (a ++ ";" ++ b) = parseAll a ++ parseAll b) ∧
    (∀ text other : String, Relation.EqvGen BreaksInto text other →
      parseAll text = parseAll other) ∧
    (∀ text : String, parseAll text = (groups text).flatMap parseAll ∧
      ∀ group ∈ groups text, parseAll group = [] ∨ ∃ alternative, parseAll group = [alternative]) ∧
    ∀ before malformed after : String, parseAll malformed = [] →
      parseAll (before ++ ";" ++ malformed ++ ";" ++ after) =
        parseAll (before ++ ";" ++ after) := by
  refine ⟨parseAll_append_semicolon, fun _ _ => parseAll_eq_of_eqvGen,
    fun text => ⟨parseAll_eq_flatMap_groups text, fun _ => parseAll_of_mem_groups⟩, ?_⟩
  intro before malformed after unread
  simp only [parseAll_append_semicolon, unread, List.append_nil]

/-- Line breaks within a weight and next to a semicolon, and groups that fail for their weight and
for their catalyst. -/
theorem groups_read_apart_malformed :
    Relation.EqvGen BreaksInto "10 A;-1 B; 2 *" "1\n0 A;\r-1 B; 2 *" ∧
    parseAll "10 A;-1 B; 2 *" = parseAll "1\n0 A;\r-1 B; 2 *" ∧
    textAll (parseAll "10 A;-1 B; 2 *") = "10 A" ∧
    " 2 *" ∈ groups "10 A;-1 B; 2 *" ∧
    (parseAll " 2 *" = [] ∨ ∃ alternative, parseAll " 2 *" = [alternative]) ∧
    parseAll "-1 B" = [] ∧
    parseAll ("10 A" ++ ";" ++ "-1 B" ++ ";" ++ " 2 *") = parseAll ("10 A" ++ ";" ++ " 2 *") := by
  obtain ⟨-, unbroken, apart, without⟩ := groups_read_apart
  have first : BreaksInto "10 A;-1 B; 2 *" "1\n0 A;-1 B; 2 *" :=
    .insert "1" "0 A;-1 B; 2 *" (c := '\n') rfl
  have second : BreaksInto "1\n0 A;-1 B; 2 *" "1\n0 A;\r-1 B; 2 *" :=
    .insert "1\n0 A;" "-1 B; 2 *" (c := '\r') rfl
  have related := Relation.EqvGen.trans _ _ _ (.rel _ _ first) (.rel _ _ second)
  have member : " 2 *" ∈ groups "10 A;-1 B; 2 *" := by decide +kernel
  have unread : parseAll "-1 B" = [] :=
    List.eq_nil_of_length_eq_zero (by decide +kernel)
  exact ⟨related, unbroken _ _ related, by decide +kernel, member, (apart _).2 _ member, unread,
    without _ _ _ unread⟩

end Lindenmayer.Alternative

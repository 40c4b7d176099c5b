import Lindenmayer.Text.Blank

/-!
# Fields of a text

A text is cut up at its blanks, and fields joined with a blank in between are cut up into the same
fields again.
-/

namespace Lindenmayer.Text

/-- Not empty, and without blanks. -/
def IsField (cs : List Char) : Prop := cs ≠ [] ∧ ∀ c ∈ cs, isBlank c = false

/-- A piece of a list consists of elements that the list is not split at. -/
theorem mem_of_mem_splitOnP {α : Type} {p : α → Bool} {xs piece : List α} {x : α}
    (member : piece ∈ xs.splitOnP p) (inside : x ∈ piece) : x ∈ xs ∧ p x = false := by
  induction xs generalizing piece with
  | nil =>
    rw [List.splitOnP_nil, List.mem_singleton] at member
    rw [member] at inside
    cases inside
  | cons first rest ih =>
    rw [List.splitOnP_cons_eq_if_modifyHead] at member
    split at member
    · rcases List.mem_cons.mp member with rfl | later
      · cases inside
      · exact (ih later inside).imp_left (List.mem_cons_of_mem first)
    · rename_i kept
      obtain ⟨head, pieces, split⟩ := List.exists_cons_of_ne_nil (List.splitOnP_ne_nil p rest)
      rw [split] at ih member
      rcases List.mem_cons.mp member with rfl | later
      · rcases List.mem_cons.mp inside with rfl | inside
        · exact ⟨List.mem_cons_self, by simpa using kept⟩
        · exact (ih List.mem_cons_self inside).imp_left (List.mem_cons_of_mem first)
      · exact (ih (List.mem_cons_of_mem head later) inside).imp_left (List.mem_cons_of_mem first)

theorem mem_of_mem_fields {cs field : List Char} {c : Char} (member : field ∈ fields cs)
    (inside : c ∈ field) : c ∈ cs :=
  (mem_of_mem_splitOnP (List.mem_filter.mp member).1 inside).1

theorem isField_of_mem_fields {cs field : List Char} (member : field ∈ fields cs) :
    IsField field := by
  obtain ⟨piece, nonempty⟩ := List.mem_filter.mp member
  exact ⟨by simpa using nonempty, fun c inside => (mem_of_mem_splitOnP piece inside).2⟩

theorem fields_append_cons {c : Char} (blank : isBlank c = true) (cs ds : List Char) :
    fields (cs ++ c :: ds) = fields cs ++ fields ds := by
  rw [fields, List.splitOnP_append_cons cs ds blank, List.filter_append]
  rfl

/-- A blank in front makes no difference. -/
theorem fields_cons {c : Char} (blank : isBlank c = true) (cs : List Char) :
    fields (c :: cs) = fields cs :=
  fields_append_cons blank [] cs

theorem fields_of_isField {cs : List Char} (isField : IsField cs) : fields cs = [cs] := by
  rw [fields, List.splitOnP_eq_singleton isField.2]
  simp [isField.1]

theorem fields_blanks_append {blanks : List Char} (blank : ∀ c ∈ blanks, isBlank c = true)
    (cs : List Char) : fields (blanks ++ cs) = fields cs := by
  induction blanks with
  | nil => rfl
  | cons first rest ih =>
    obtain ⟨isFirst, isRest⟩ := List.forall_mem_cons.mp blank
    rw [List.cons_append, fields_cons isFirst, ih isRest]

/-- Any positive number of blanks separates fields like a single one. -/
theorem fields_append_blanks {separator : List Char} (nonempty : separator ≠ [])
    (blank : ∀ c ∈ separator, isBlank c = true) (cs ds : List Char) :
    fields (cs ++ (separator ++ ds)) = fields cs ++ fields ds := by
  obtain ⟨first, rest, rfl⟩ := List.exists_cons_of_ne_nil nonempty
  obtain ⟨isFirst, isRest⟩ := List.forall_mem_cons.mp blank
  rw [List.cons_append, fields_append_cons isFirst, fields_blanks_append isRest]

/-- Puts separators between parts, a different one at each place. -/
def joinWith : (Nat → List Char) → List (List Char) → List Char
  | _, [] => []
  | _, [part] => part
  | separator, part :: next :: rest =>
    part ++ (separator 0 ++ joinWith (fun place => separator (place + 1)) (next :: rest))

theorem joinWith_const (separator : List Char) (list : List (List Char)) :
    joinWith (fun _ => separator) list = separator.intercalate list := by
  induction list with
  | nil => rfl
  | cons first rest ih =>
    cases rest with
    | nil => rw [List.intercalate_singleton, joinWith]
    | cons second rest =>
      rw [List.intercalate_cons_cons, List.append_assoc, ← ih, joinWith]

/-- Joining fields with blanks in between and cutting them up again leads back to them. -/
theorem fields_joinWith {separator : Nat → List Char} (nonempty : ∀ place, separator place ≠ [])
    (blank : ∀ place, ∀ c ∈ separator place, isBlank c = true) {list : List (List Char)}
    (isField : ∀ field ∈ list, IsField field) : fields (joinWith separator list) = list := by
  induction list generalizing separator with
  | nil => rfl
  | cons first rest ih =>
    obtain ⟨isFirst, isRest⟩ := List.forall_mem_cons.mp isField
    cases rest with
    | nil => rw [joinWith, fields_of_isField isFirst]
    | cons second rest =>
      rw [joinWith, fields_append_blanks (nonempty 0) (blank 0), fields_of_isField isFirst,
        ih (fun place => nonempty (place + 1)) (fun place => blank (place + 1)) isRest,
        List.singleton_append]

theorem fields_intercalate {list : List (List Char)} (isField : ∀ field ∈ list, IsField field) :
    fields ([' '].intercalate list) = list := by
  rw [← joinWith_const]
  exact fields_joinWith (fun _ => by simp) (fun _ => by simp; decide) isField

/-- What holds of all separators and of everything in between holds throughout. -/
theorem forall_mem_intercalate {P : Char → Prop} {separator : List Char} {list : List (List Char)}
    (between : ∀ c ∈ separator, P c) (within : ∀ part ∈ list, ∀ c ∈ part, P c) :
    ∀ c ∈ separator.intercalate list, P c := by
  induction list with
  | nil => simp
  | cons first rest ih =>
    obtain ⟨here, later⟩ := List.forall_mem_cons.mp within
    cases rest with
    | nil =>
      rw [List.intercalate_singleton]
      exact here
    | cons second rest =>
      rw [List.intercalate_cons_cons]
      exact List.forall_mem_append.mpr ⟨List.forall_mem_append.mpr ⟨here, between⟩, ih later⟩

end Lindenmayer.Text

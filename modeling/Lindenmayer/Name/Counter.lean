import Lindenmayer.Name

/-!
# Counter names

A variable name that ends in digits, such as `S3`, is one level of a counter family: it has a
base, `S`, and a level between 1 and 255.  Different spellings may mean the same level (`S3` and
`S03`, or any two levels past 255); `canonical` picks the plain decimal one.
-/

namespace Lindenmayer.Name

/-- The highest level a counter family can reach; larger numbers mean this level. -/
def maxCounterLevel : Nat := 255

/-- The digits at the end of a spelling. -/
def trailingDigits (cs : List Char) : List Char := (cs.reverse.takeWhile Char.isDigit).reverse

/-- What a spelling leaves when the digits at its end are cut off. -/
def stem (cs : List Char) : List Char := (cs.reverse.dropWhile Char.isDigit).reverse

theorem stem_append_trailingDigits (cs : List Char) : stem cs ++ trailingDigits cs = cs := by
  rw [stem, trailingDigits, ← List.reverse_append, List.takeWhile_append_dropWhile,
    List.reverse_reverse]

/-- Numbers are held at the largest 32-bit word. -/
def saturate (n : Nat) : Nat := min n 4294967295

/-- The value of a decimal digit. -/
def digitValue (c : Char) : Nat := c.toNat - '0'.toNat

/-- The number written by decimal digits, saturating after each product and each sum. -/
def saturatingValue (digits : List Char) : Nat :=
  digits.foldl (fun value c => saturate (saturate (value * 10) + digitValue c)) 0

/-- The base and the level of a counter name; `none` for a name that does not end in digits,
whose stem is not a variable, or whose number is 0. -/
def counter? (name : Name) : Option (Name × UInt8) :=
  let base := stem name.chars
  let digits := trailingDigits name.chars
  if digits.isEmpty || !spellsVariable base then
    none
  else
    let value := saturatingValue digits
    if value = 0 then none else some (ofChars base, (min value maxCounterLevel).toUInt8)

/-- The plain decimal spelling of a level of the family with base `base`. -/
def atLevel (base : Name) (level : UInt8) : Name := ⟨base.text ++ toString level.toNat⟩

/-- The plain decimal spelling of a counter name; other names are left alone. -/
def canonical (name : Name) : Name :=
  match name.counter? with
  | some (base, level) => base.atLevel level
  | none => name

end Lindenmayer.Name

import Lindenmayer.Growth

/-!
# Walking through a generation

A cursor walks through the current words of the lanes in order, without joining them.  At each
point it knows how many symbols are left.
-/

namespace Lindenmayer

/-- A place in a row of lanes: the lanes not yet left, and a position in the first of them. -/
structure Cursor where
  lanes : List Lane
  position : Nat

namespace Cursor

/-- How many symbols are left. -/
def remaining (cursor : Cursor) : Nat := Lane.totalSize cursor.lanes - cursor.position

/-- Bounds for the number of symbols that are left, a lower one and, where there is one, an upper
one. -/
def sizeHint (cursor : Cursor) : Nat × Option Nat := (cursor.remaining, some cursor.remaining)

/-- The next symbol in a row of lanes from a position in the first of them, and the place behind
it. -/
def nextFrom : List Lane → Nat → Option Symbol × Cursor
  | [], _ => (none, ⟨[], 0⟩)
  | lane :: lanes, position =>
    match lane.read.symbols[position]? with
    | some symbol => (some symbol, ⟨lane :: lanes, position + 1⟩)
    | none => nextFrom lanes 0

/-- The next symbol, if one is left, and the place behind it. -/
def next (cursor : Cursor) : Option Symbol × Cursor := nextFrom cursor.lanes cursor.position

/-- Adds up to `count` symbols from a place on to those found before. -/
def collect : Nat → Cursor → Array Symbol → Array Symbol
  | 0, _, found => found
  | count + 1, cursor, found =>
    match cursor.next with
    | (some symbol, cursor) => collect count cursor (found.push symbol)
    | (none, _) => found

/-- All symbols from a place on. -/
def toList (cursor : Cursor) : List Symbol := (collect cursor.remaining cursor #[]).toList

end Cursor

namespace Growth

/-- The place before the first symbol of the current generation. -/
def cursor (growth : Growth) : Cursor := ⟨growth.pool.lanes, 0⟩

/-- The names of the current generation, met one by one; a symbol without a name goes by the name
of the boundary. -/
def walkNames (growth : Growth) : List Name :=
  let alphabet := growth.system.alphabet
  growth.cursor.toList.filterMap fun symbol =>
    (alphabet.name? symbol).or (alphabet.name? alphabet.boundary)

end Growth

end Lindenmayer

import Mathlib.Algebra.Ring.Nat
import Lindenmayer.Growth.Cursor
import Lindenmayer.Proofs.Growth.Operations
import Lindenmayer.Proofs.LSystem.Productions
import Lindenmayer.Proofs.Alphabet.Entries

/-!
# Views of a generation

A generation can be read as one word, met symbol by symbol, named, or just counted.  A cursor meets
the symbols of the lanes one after another, leaving out the lanes that are empty, and knows at every
moment how many are left.
-/

namespace Lindenmayer

/-! ### Walking -/

namespace Cursor

/-- The symbols from a position in the first of some lanes on. -/
def restFrom : List Lane → Nat → List Symbol
  | [], _ => []
  | lane :: lanes, position => lane.word.drop position ++ lanes.flatMap Lane.word

/-- The symbols that have not been met yet. -/
def rest (cursor : Cursor) : List Symbol := restFrom cursor.lanes cursor.position

/-- The position does not lie beyond the end of the lane. -/
def InRange : Cursor → Prop
  | ⟨[], position⟩ => position = 0
  | ⟨lane :: _, position⟩ => position ≤ lane.read.size

/-- What a number of calls return, and the place after them. -/
def nextTimes : Nat → Cursor → List (Option Symbol) × Cursor
  | 0, cursor => ([], cursor)
  | count + 1, cursor =>
    let (met, cursor) := cursor.next
    let (others, cursor) := nextTimes count cursor
    (met :: others, cursor)

theorem nextTimes_succ (count : Nat) (cursor : Cursor) :
    cursor.nextTimes (count + 1) =
      (cursor.next.1 :: (cursor.next.2.nextTimes count).1, (cursor.next.2.nextTimes count).2) := rfl

@[simp] theorem restFrom_zero (lanes : List Lane) : restFrom lanes 0 = lanes.flatMap Lane.word := by
  cases lanes <;> rfl

/-- Behind the end of a lane the next lane begins. -/
theorem restFrom_of_getElem?_eq_none {lane : Lane} {position : Nat}
    (beyond : lane.read.symbols[position]? = none) (lanes : List Lane) :
    restFrom (lane :: lanes) position = restFrom lanes 0 := by
  have passed : lane.word.length ≤ position := by
    rw [Lane.length_word]
    exact Array.getElem?_eq_none_iff.mp beyond
  rw [restFrom, List.drop_of_length_le passed, List.nil_append, restFrom_zero]

theorem restFrom_of_getElem?_eq_some {lane : Lane} {position : Nat} {symbol : Symbol}
    (found : lane.read.symbols[position]? = some symbol) (lanes : List Lane) :
    restFrom (lane :: lanes) position = symbol :: restFrom (lane :: lanes) (position + 1) := by
  obtain ⟨inside, rfl⟩ := Array.getElem?_eq_some_iff.mp found
  have inside' : position < lane.word.length := by
    rw [Lane.length_word]
    exact inside
  rw [restFrom, restFrom, List.drop_eq_getElem_cons inside', List.cons_append]
  rfl

/-- A call meets the first symbol of the rest, however many empty lanes come before it. -/
theorem nextFrom_eq (lanes : List Lane) (position : Nat) :
    (nextFrom lanes position).1 = (restFrom lanes position).head? ∧
      (nextFrom lanes position).2.rest = (restFrom lanes position).tail ∧
      (nextFrom lanes position).2.InRange := by
  fun_induction nextFrom lanes position with
  | case1 => exact ⟨rfl, rfl, rfl⟩
  | case2 lane lanes position symbol found =>
    rw [restFrom_of_getElem?_eq_some found]
    exact ⟨rfl, rfl, (Array.getElem?_eq_some_iff.mp found).1⟩
  | case3 lane lanes position beyond ih =>
    rw [restFrom_of_getElem?_eq_none beyond]
    exact ih

theorem nextTimes_eq (count : Nat) (cursor : Cursor) :
    (cursor.nextTimes count).1 =
        (cursor.rest.take count).map some ++ List.replicate (count - cursor.rest.length) none ∧
      (cursor.nextTimes count).2.rest = cursor.rest.drop count ∧
      (cursor.InRange → (cursor.nextTimes count).2.InRange) := by
  induction count generalizing cursor with
  | zero => simp [nextTimes]
  | succ count ih =>
    obtain ⟨met, left, inRange⟩ := nextFrom_eq cursor.lanes cursor.position
    obtain ⟨others, later, kept⟩ := ih cursor.next.2
    rw [nextTimes_succ, others, later]
    have same : cursor.next.2.rest = cursor.rest.tail := left
    have first : cursor.next.1 = cursor.rest.head? := met
    refine ⟨?_, by rw [same, List.drop_tail], fun _ => kept inRange⟩
    rw [same, first]
    cases cursor.rest with
    | nil => simp [List.replicate_succ]
    | cons symbol symbols => simp

/-- In range, counting what is left never has to stop at zero. -/
theorem InRange.remaining_eq {cursor : Cursor} (inRange : cursor.InRange) :
    cursor.position ≤ Lane.totalSize cursor.lanes ∧ cursor.remaining = cursor.rest.length := by
  obtain ⟨lanes, position⟩ := cursor
  cases lanes with
  | nil =>
    obtain rfl : position = 0 := inRange
    exact ⟨Nat.le_refl 0, rfl⟩
  | cons lane lanes =>
    have within : position ≤ lane.read.size := inRange
    have others : (lanes.flatMap Lane.word).length = Lane.totalSize lanes :=
      Pool.length_word ⟨lanes⟩
    have total : Lane.totalSize (lane :: lanes) = lane.read.size + Lane.totalSize lanes := rfl
    simp only [remaining, rest, restFrom, List.length_append, List.length_drop, Lane.length_word,
      others, total]
    omega

theorem toList_collect (count : Nat) (cursor : Cursor) (found : Array Symbol) :
    (collect count cursor found).toList = found.toList ++ cursor.rest.take count := by
  induction count generalizing cursor found with
  | zero => simp [collect]
  | succ count ih =>
    obtain ⟨met, left, -⟩ := nextFrom_eq cursor.lanes cursor.position
    rw [collect, next]
    rw [← rest] at met left
    split
    next symbol later called =>
      rw [called] at met left
      obtain ⟨_, rest⟩ := List.head?_eq_some_iff.mp met.symm
      rw [ih, left, rest]
      simp
    next called =>
      rw [called] at met
      rw [List.head?_eq_none_iff.mp met.symm]
      simp

theorem toList_eq {cursor : Cursor} (inRange : cursor.InRange) : cursor.toList = cursor.rest := by
  rw [toList, toList_collect, inRange.remaining_eq.2, List.take_length]
  rfl

end Cursor

/-! ### Counting and naming -/

/-- The boundary of a built alphabet has a name. -/
theorem Alphabet.exists_name?_boundary {grammar : Grammar} (fits : Fits grammar) :
    ∃ name, (assemble grammar).name? (assemble grammar).boundary = some name := by
  obtain ⟨slot, placed⟩ := slot?_of_symbol? fits (symbol?_empty fits)
  exact name?_of_slot? fits placed

theorem Lane.totalSize_eq_sum (lanes : List Lane) :
    totalSize lanes = (lanes.map fun lane => lane.word.length).sum := by
  induction lanes with
  | nil => rfl
  | cons lane lanes ih => rw [List.map_cons, List.sum_cons, ← ih, length_word]; rfl

namespace Growth

variable {growth : Growth}

theorem inRange_cursor (growth : Growth) : growth.cursor.InRange := by
  obtain ⟨_, _, ⟨lanes⟩, _, _, _⟩ := growth
  cases lanes with
  | nil => rfl
  | cons lane lanes => exact Nat.zero_le _

theorem rest_cursor (growth : Growth) : growth.cursor.rest = growth.word :=
  Cursor.restFrom_zero growth.pool.lanes

theorem toList_cursor (growth : Growth) : growth.cursor.toList = growth.word := by
  rw [Cursor.toList_eq growth.inRange_cursor, rest_cursor]

/-- Since the boundary has a name, every symbol goes by some name, and none is left out. -/
theorem walkNames_eq {boundary : Name}
    (named : growth.system.alphabet.name? growth.system.alphabet.boundary = some boundary) :
    growth.walkNames = growth.names := by
  have met : ∀ symbol, (growth.system.alphabet.name? symbol).or (some boundary) =
      some ((growth.system.alphabet.name? symbol).getD boundary) := by
    intro symbol
    cases growth.system.alphabet.name? symbol <;> rfl
  simp only [walkNames, names, Alphabet.decode, Alphabet.boundaryName, toList_cursor, named, met,
    Option.getD_some]
  exact congrFun List.filterMap_eq_map _

/-- All views of a generation agree, whatever is in the lanes and wherever some of them are empty.
Any number of calls to the cursor return the first symbols of the generation in order, and nothing
more once there are no more symbols; the number of those left, as given by both bounds, is then the
length without the symbols met, and no subtraction stops at zero on the way.  The names met one by
one are the names of the generation, which has as many symbols as its lanes have together. -/
theorem views_agree {start : Name} {grammar : Grammar} {tabulate : Bool}
    (compiled : LSystem.compile start grammar tabulate = .ok growth.system) :
    (∀ count,
      (growth.cursor.nextTimes count).1 =
        (growth.word.take (min count growth.size)).map some ++
          List.replicate (count - growth.size) none ∧
      (growth.cursor.nextTimes count).2.position ≤
        Lane.totalSize (growth.cursor.nextTimes count).2.lanes ∧
      (growth.cursor.nextTimes count).2.sizeHint =
        (growth.size - min count growth.size, some (growth.size - min count growth.size))) ∧
    growth.cursor.toList = growth.word ∧
    growth.walkNames = growth.names ∧ growth.walkNames.length = growth.size ∧
    growth.word.length = growth.size ∧
    growth.size = (growth.pool.lanes.map fun lane => lane.word.length).sum := by
  obtain ⟨entries, compiles⟩ := LSystem.exists_compiles compiled
  obtain ⟨boundary, named⟩ := Alphabet.exists_name?_boundary compiles.fits
  rw [← compiles.alphabet_eq] at named
  have length : growth.word.length = growth.size := growth.pool.length_word
  refine ⟨fun count => ?calls, toList_cursor growth, walkNames_eq named, ?names, length,
    Lane.totalSize_eq_sum growth.pool.lanes⟩
  case calls =>
    obtain ⟨met, left, kept⟩ := Cursor.nextTimes_eq count growth.cursor
    rw [rest_cursor, length] at met
    obtain ⟨within, remaining⟩ := (kept growth.inRange_cursor).remaining_eq
    rw [left, rest_cursor, List.length_drop, length] at remaining
    refine ⟨?_, within, ?_⟩
    · rw [met, ← length, List.take_eq_take_min]
    · have fewer : growth.size - count = growth.size - min count growth.size := by omega
      rw [Cursor.sizeHint, remaining, fewer]
  case names =>
    rw [walkNames_eq named, names, Alphabet.decode, List.length_map, length]

/-- More lanes than there are symbols when the generation is spread, which leaves all lanes but the
last one empty. -/
def mostlyIdle : Settings := ⟨4, 1, 1, 1, false, some 7⟩

theorem views_agree_mostlyIdle :
    ∃ system growth, LSystem.compile ⟨"A"⟩ branching false = .ok system ∧
      growth = run (fun _ => 0) [.growTo 1] (start system mostlyIdle 0) ∧
      growth.system = system ∧
      growth.pool.lanes.map (fun lane => lane.word.length) = [0, 0, 0, 2] ∧ growth.size = 2 ∧
      (∃ first second, growth.word = [first, second] ∧
        (growth.cursor.nextTimes 4).1 = [some first, some second, none, none]) ∧
      (growth.cursor.nextTimes 1).2.sizeHint = (1, some 1) ∧
      growth.walkNames = growth.names ∧ growth.walkNames.length = 2 := by
  have evaluated : (LSystem.compile ⟨"A"⟩ branching false).toOption.map (fun system =>
      (run (fun _ => 0) [.growTo 1] (start system mostlyIdle 0)).pool.lanes.map
        fun lane => lane.word.length) = some [0, 0, 0, 2] := by decide +kernel
  obtain ⟨system, compiled, lengths⟩ := exists_ok_of_toOption_map evaluated
  obtain ⟨calls, -, names, count, length, total⟩ :=
    views_agree (show LSystem.compile ⟨"A"⟩ branching false =
      .ok (run (fun _ => 0) [.growTo 1] (start system mostlyIdle 0)).system from compiled)
  rw [lengths] at total
  rw [total] at count length
  obtain ⟨first, second, word⟩ := List.length_eq_two.mp length
  refine ⟨system, _, compiled, rfl, rfl, lengths, total, ⟨first, second, word, ?_⟩, ?_, names,
    count⟩
  · rw [(calls 4).1, word, total]
    rfl
  · rw [(calls 1).2.2, total]
    rfl

end Growth

end Lindenmayer

import GrowthGrammar.Alphabet
import GrowthGrammar.Word

/-!
# Context matching

Whether the neighbours of a letter satisfy a pattern of symbols. The word is walked outward from the
letter, to the left or to the right, and compared with the pattern in the order in which it is met.

Branches are the parts of a word between `[` and `]`; seen from the right they open with `]`. A
neighbour is looked for past the branches beside it, unless the pattern itself enters one:

    word A [ C ] D      the right neighbours of A include D, and [ C ] D, but not [ E ]
    word A [ C [ E ] ] D      and [ C [ E ] ] as well as [ C ] D

The walk keeps the number of brackets open around it. Once the pattern has entered a branch, it also
keeps, for every bracket opened since, whether the pattern opened it. A symbol counts while no
bracket is open or the innermost open one was opened by the pattern. Branches that the pattern did
not ask for are stepped over at every level; ignored symbols are looked through; any other symbol
that counts and is not the wanted one ends the walk without a match.
-/

set_option autoImplicit false

namespace GrowthGrammar

/-- The side of a letter on which a context lies. -/
inductive Side where
  | before
  | after
  deriving Repr, DecidableEq

namespace Side

/-- The bracket that opens a branch on the walk away from the letter. -/
def opening : Side → String
  | before => "]"
  | after => "["

/-- The bracket that closes a branch on the walk away from the letter. -/
def closing : Side → String
  | before => "["
  | after => "]"

/-- The symbols of a word on this side of a position, nearest first. -/
def outward (side : Side) (word : List String) (index : Nat) : List String :=
  match side with
  | before => (word.take index).reverse
  | after => word.drop (index + 1)

/-- A pattern in the order in which the walk meets it. -/
def facing (side : Side) (pattern : List String) : List String :=
  match side with
  | before => pattern.reverse
  | after => pattern

end Side

/-- The brackets open around a walk. -/
structure Nesting where
  /-- How many brackets are open; a bracket that closes more than the walk opened leaves it zero. -/
  depth : Nat := 0
  /-- For each bracket opened since the pattern entered a branch, innermost first, whether the
  pattern opened it. -/
  followed : List Bool := []
  deriving Repr, DecidableEq

namespace Nesting

/-- Whether symbols count at this point of the walk. -/
def tracks (nesting : Nesting) : Bool :=
  nesting.depth == 0 || nesting.followed.head? == some true

/-- The pattern opens a bracket. -/
def enter (nesting : Nesting) : Nesting :=
  ⟨nesting.depth + 1, true :: nesting.followed⟩

/-- A bracket is passed that the pattern did not ask for. -/
def pass (nesting : Nesting) : Nesting :=
  ⟨nesting.depth + 1, if nesting.followed.isEmpty then [] else false :: nesting.followed⟩

/-- The innermost bracket is closed. -/
def leave (nesting : Nesting) : Nesting :=
  ⟨nesting.depth - 1, nesting.followed.tail⟩

end Nesting

/-- What one symbol of the walk does to the pattern. -/
inductive Visit where
  /-- The symbol is the wanted one. -/
  | matched (nesting : Nesting)
  /-- The symbol is passed. -/
  | skipped (nesting : Nesting)
  /-- The symbol rules the pattern out. -/
  | refused
  deriving Repr, DecidableEq

/-- Compares one symbol with the wanted one. -/
def Nesting.visit (side : Side) (ignored : String → Bool) (nesting : Nesting)
    (wanted symbol : String) : Visit :=
  if symbol = wanted ∧ nesting.tracks = true then
    if symbol = side.opening then .matched nesting.enter
    else if symbol = side.closing then .matched nesting.leave
    else .matched nesting
  else if symbol = side.opening then .skipped nesting.pass
  else if symbol = side.closing then .skipped nesting.leave
  -- a pattern that waits for the end of the branch it entered lets the rest of the branch pass
  else if (nesting.depth = 0 ∨ (nesting.tracks = true ∧ wanted ≠ side.closing))
      ∧ ignored symbol = false then .refused
  else .skipped nesting

/-- Walks along symbols until the pattern is met in full, is ruled out, or the symbols end. -/
def walk (side : Side) (ignored : String → Bool) (nesting : Nesting) :
    List String → List String → Bool
  | _, [] => true
  | [], _ :: _ => false
  | symbol :: symbols, wanted :: pattern =>
    match nesting.visit side ignored wanted symbol with
    | .matched next => walk side ignored next symbols pattern
    | .skipped next => walk side ignored next symbols (wanted :: pattern)
    | .refused => false

/-- Whether the neighbours of the position `index` on one side satisfy a pattern. -/
def matchesContext (word : List String) (index : Nat) (pattern : List String) (side : Side)
    (ignored : Alphabet .ignored) : Bool :=
  walk side (fun symbol => decide (symbol ∈ ignored)) {} (side.outward word index)
    (side.facing pattern)

end GrowthGrammar

import GrowthGrammar.Text.Blank

/-!
# Alphabets

A growth grammar reads phrases over two alphabets. Symbols of the *active* alphabet grow: productions
replace them. Symbols of the *ignored* alphabet are punctuation for drawing (turns, branches,
polygons): they are recognised, they never own a production, and context matching looks through
them. A symbol is a non-empty string and may be several characters long.

An `Alphabet` carries the proof that each of its symbols is admissible in its role and that none
is listed twice; `Alphabet.ofList` builds one or says which symbol is at fault.
-/

set_option autoImplicit false

namespace GrowthGrammar

/-- What the symbols of an alphabet are for. -/
inductive Role where
  | active
  | ignored
  deriving Repr, DecidableEq

/-- Whether a character opens or closes a parameter group. -/
def isMarker (c : Char) : Bool :=
  c == '(' || c == ')'

/-- Whether a symbol is one of the two markers alone. -/
def isBareMarker (symbol : String) : Bool :=
  symbol == "(" || symbol == ")"

/-- Whether a non-empty symbol may be listed. Phrases are read without their blanks, and a marker
belongs to a parameter group, so a symbol with either could not be read; an ignored alphabet may
still list the markers themselves. -/
def Role.admits (role : Role) (symbol : String) : Bool :=
  !symbol.toList.any Text.isBlank &&
    (!symbol.toList.any isMarker || (role == .ignored && isBareMarker symbol))

/-- Why a list of symbols is no alphabet, or two alphabets no vocabulary. -/
inductive AlphabetError where
  /-- An active alphabet without symbols. -/
  | empty
  | emptySymbol
  | invalidSymbol (symbol : String)
  | duplicate (symbol : String)
  /-- A symbol that is both active and ignored. -/
  | overlap (symbol : String)
  deriving Repr, DecidableEq

/-- The wording of an alphabet error. -/
def AlphabetError.message : AlphabetError → String
  | empty => "alphabet must contain at least one symbol"
  | emptySymbol => "alphabet contains an empty symbol"
  | invalidSymbol symbol => s!"symbol '{symbol}' contains whitespace or parametric markers"
  | duplicate symbol => s!"symbol '{symbol}' is declared more than once"
  | overlap symbol => s!"symbol '{symbol}' is both an active and an ignored symbol"

/-- Symbols in the order in which they were listed. -/
structure Alphabet (role : Role) where
  symbols : List String
  nonempty_of_mem : ∀ s ∈ symbols, s ≠ ""
  admits_of_mem : ∀ s ∈ symbols, role.admits s = true
  nodup : symbols.Nodup

namespace Alphabet

variable {role : Role}

instance : Membership String (Alphabet role) where
  mem alphabet symbol := symbol ∈ alphabet.symbols

instance (symbol : String) (alphabet : Alphabet role) : Decidable (symbol ∈ alphabet) :=
  inferInstanceAs (Decidable (symbol ∈ alphabet.symbols))

/-- The alphabet without symbols. -/
def empty : Alphabet role where
  symbols := []
  nonempty_of_mem := by simp
  admits_of_mem := by simp
  nodup := List.nodup_nil

/-- The number of symbols. -/
def size (alphabet : Alphabet role) : Nat :=
  alphabet.symbols.length

/-- Lists one more symbol. An empty symbol is refused first, then one that its role does not
admit, then one that is listed already. -/
def push (alphabet : Alphabet role) (symbol : String) : Except AlphabetError (Alphabet role) :=
  if hne : symbol = "" then .error .emptySymbol
  else if had : role.admits symbol = true then
    if hmem : symbol ∈ alphabet.symbols then .error (.duplicate symbol)
    else .ok
      { symbols := alphabet.symbols ++ [symbol]
        nonempty_of_mem := by
          intro s hs
          rcases List.mem_append.1 hs with hs | hs
          · exact alphabet.nonempty_of_mem s hs
          · rwa [List.mem_singleton.1 hs]
        admits_of_mem := by
          intro s hs
          rcases List.mem_append.1 hs with hs | hs
          · exact alphabet.admits_of_mem s hs
          · rwa [List.mem_singleton.1 hs]
        nodup := by
          refine List.nodup_append.2 ⟨alphabet.nodup, by simp, ?_⟩
          intro a ha b hb hab
          rw [List.mem_singleton.1 hb] at hab
          exact hmem (hab ▸ ha) }
  else .error (.invalidSymbol symbol)

/-- The alphabet that lists the given symbols, or the first fault among them. -/
def ofList (role : Role) (symbols : List String) : Except AlphabetError (Alphabet role) :=
  symbols.foldlM push empty

/-- An active alphabet lists at least one symbol. -/
def activeOfList (symbols : List String) : Except AlphabetError (Alphabet .active) := do
  let alphabet ← ofList .active symbols
  if alphabet.symbols.isEmpty then .error .empty else .ok alphabet

theorem symbols_of_push {alphabet next : Alphabet role} {symbol : String}
    (h : alphabet.push symbol = .ok next) : next.symbols = alphabet.symbols ++ [symbol] := by
  unfold push at h
  split at h
  · cases h
  · split at h
    · split at h
      · cases h
      · cases h; rfl
    · cases h

theorem symbols_of_foldlM_push {symbols : List String} {alphabet next : Alphabet role}
    (h : symbols.foldlM push alphabet = .ok next) :
    next.symbols = alphabet.symbols ++ symbols := by
  induction symbols generalizing alphabet with
  | nil => cases h; simp
  | cons s rest ih =>
    rw [List.foldlM_cons] at h
    cases hp : alphabet.push s with
    | error e => rw [hp] at h; cases h
    | ok mid =>
      rw [hp] at h
      rw [ih h, symbols_of_push hp, List.append_assoc, List.singleton_append]

/-- An alphabet lists exactly the symbols it was built from, in their order. -/
theorem symbols_of_ofList {symbols : List String} {alphabet : Alphabet role}
    (h : ofList role symbols = .ok alphabet) : alphabet.symbols = symbols := by
  rw [symbols_of_foldlM_push h]; rfl

end Alphabet

/-- The uppercase Latin letters, the active symbols when nothing else is chosen. -/
def latinCapitals : Alphabet .active where
  symbols :=
    ["A", "B", "C", "D", "E", "F", "G", "H", "I", "J", "K", "L", "M", "N", "O", "P", "Q", "R",
     "S", "T", "U", "V", "W", "X", "Y", "Z"]
  nonempty_of_mem := by decide
  admits_of_mem := by decide
  nodup := by decide

/-- The punctuation of drawings: turns and rolls, branches, polygons and parameter markers. -/
def drawingMarks : Alphabet .ignored where
  symbols := ["+", "-", "&", "^", "/", "|", "\\", "!", ".", "\x7b", "\x7d", "[", "]", "(", ")"]
  nonempty_of_mem := by decide
  admits_of_mem := by decide
  nodup := by decide

/-- The two alphabets that phrases are read against. -/
structure Vocabulary where
  active : Alphabet .active
  ignored : Alphabet .ignored

namespace Vocabulary

/-- Whether a symbol is known, in either role. -/
def knows (vocabulary : Vocabulary) (symbol : String) : Bool :=
  decide (symbol ∈ vocabulary.active) || decide (symbol ∈ vocabulary.ignored)

/-- The first active symbol that is ignored as well. -/
def overlap? (vocabulary : Vocabulary) : Option String :=
  vocabulary.active.symbols.find? fun symbol => decide (symbol ∈ vocabulary.ignored)

/-- The symbols of the two alphabets must differ. -/
def ensureDisjoint (vocabulary : Vocabulary) : Except AlphabetError Unit :=
  match vocabulary.overlap? with
  | some symbol => .error (.overlap symbol)
  | none => .ok ()

theorem knows_iff {vocabulary : Vocabulary} {symbol : String} :
    vocabulary.knows symbol = true ↔
      symbol ∈ vocabulary.active ∨ symbol ∈ vocabulary.ignored := by
  simp [knows]

theorem ensureDisjoint_eq_ok_iff {vocabulary : Vocabulary} :
    vocabulary.ensureDisjoint = .ok () ↔
      ∀ symbol ∈ vocabulary.active, symbol ∉ vocabulary.ignored := by
  unfold ensureDisjoint overlap?
  split
  · next symbol h =>
    have hmem := List.mem_of_find?_eq_some h
    have hign := List.find?_some h
    simp only [decide_eq_true_eq] at hign
    exact ⟨fun h => (nomatch h), fun h => absurd hign (h symbol hmem)⟩
  · next h =>
    simp only [true_iff]
    intro symbol hmem
    simpa using List.find?_eq_none.1 h symbol hmem

end Vocabulary

end GrowthGrammar

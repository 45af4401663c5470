import GrowthGrammar.Derivation.Resolution

/-!
# Passes

One pass replaces every occurrence of a word at once: the result is the concatenation of the images
of the occurrences, each computed from the word before the pass and the position alone. An occurrence
that fails to be replaced is kept as it is, and a diagnostic says why; it does not disturb the
others.

`Setting.pass` and `Setting.passDiagnostics` say this occurrence by occurrence. A run carries a pass
out as one `Setting.sweep` from left to right, which puts the next word and the diagnostics together
as it goes. The rules are given as one list, of which only the rules of one symbol at a time are
looked up (`rulesFor`, `Setting.run_congr`).
-/

set_option autoImplicit false

namespace GrowthGrammar

/-- An occurrence that was kept because replacing it failed. -/
structure Diagnostic where
  /-- The number of the pass within its run, from zero. -/
  iteration : Nat
  index : Nat
  symbol : String
  error : DerivationError
  deriving DecidableEq

/-- The occurrences of a word in order. -/
def Word.occurrences (word : Word) : List Occurrence :=
  word.zipIdx.map fun (letter, index) => ⟨word, index, letter⟩

/-- The rules registered for a symbol, in the order of their registration. -/
def rulesFor (rules : List Rule) (symbol : String) : List Rule :=
  rules.filter fun rule => rule.symbol = symbol

/-- The rules of a symbol are a list of their own: a rule that is put last goes behind those of its
own symbol and leaves those of the others as they are. -/
theorem rulesFor_concat (rules : List Rule) (rule : Rule) (symbol : String) :
    rulesFor (rules ++ [rule]) symbol =
      if rule.symbol = symbol then rulesFor rules symbol ++ [rule]
      else rulesFor rules symbol := by
  rw [rulesFor, List.filter_append]
  by_cases hsymbol : rule.symbol = symbol
  · simp [rulesFor, hsymbol]
  · simp [rulesFor, hsymbol]

namespace Setting

/-- The word that a source stands for in this setting, parameters not bound. -/
def normalize (setting : Setting) (source : Source) : Except DerivationError Word :=
  (source.normalize setting.vocabulary (Scope.ofDefines setting.defines).lookup).mapError .phrase

/-- The word to put for an occurrence under the rules of its symbol; none if none of them
applies. -/
def replacement? (setting : Setting) (rules : List Rule) (occurrence : Occurrence) :
    Except DerivationError (Option Word) := do
  match ← setting.resolveFirst occurrence rules with
  | .noMatch => return none
  | .replace source => return some (← setting.normalize source)

/-- What is derived from an occurrence, or why nothing can be. From an occurrence to which no rule
applies it is the occurrence itself. -/
def derive (setting : Setting) (rules : List Rule) (occurrence : Occurrence) :
    Except DerivationError Word :=
  match setting.resolveFirst occurrence (rulesFor rules occurrence.letter.symbol) with
  | .error error => .error error
  | .ok .noMatch => .ok [occurrence.letter]
  | .ok (.replace source) => setting.normalize source

/-- What stands for an occurrence in the next word. -/
def image (setting : Setting) (rules : List Rule) (occurrence : Occurrence) : Word :=
  match setting.derive rules occurrence with
  | .ok word => word
  | .error _ => [occurrence.letter]

/-- The word after one pass. -/
def pass (setting : Setting) (rules : List Rule) (word : Word) : Word :=
  word.occurrences.flatMap (setting.image rules)

/-- The diagnostic of an occurrence, if nothing can be derived from it. -/
def diagnose? (setting : Setting) (rules : List Rule) (iteration : Nat) (occurrence : Occurrence) :
    Option Diagnostic :=
  match setting.derive rules occurrence with
  | .ok _ => none
  | .error error => some ⟨iteration, occurrence.index, occurrence.letter.symbol, error⟩

/-- The diagnostics of one pass, by position. -/
def passDiagnostics (setting : Setting) (rules : List Rule) (iteration : Nat) (word : Word) :
    List Diagnostic :=
  word.occurrences.filterMap (setting.diagnose? rules iteration)

/-- The draws of one pass, by position. -/
def passDraws (setting : Setting) (rules : List Rule) (word : Word) : List Draw :=
  word.occurrences.flatMap fun occurrence =>
    setting.drawsFirst occurrence (rulesFor rules occurrence.letter.symbol)

end Setting

/-- What a sweep has put together so far. -/
structure Sweep where
  /-- The next word, up to the occurrence that the sweep has reached. -/
  letters : Array Letter := #[]
  diagnostics : Array Diagnostic := #[]

namespace Sweep

/-- The sweep goes past an occurrence that stays. -/
def keep (sweep : Sweep) (occurrence : Occurrence) : Sweep :=
  { sweep with letters := sweep.letters.push occurrence.letter }

/-- The sweep puts a word for an occurrence. -/
def put (sweep : Sweep) (word : Word) : Sweep :=
  { sweep with letters := sweep.letters ++ word }

/-- The sweep notes why an occurrence is not replaced. -/
def note (sweep : Sweep) (diagnostic : Diagnostic) : Sweep :=
  { sweep with diagnostics := sweep.diagnostics.push diagnostic }

end Sweep

namespace Setting

/-- A sweep goes over one more occurrence. -/
def advance (setting : Setting) (rules : List Rule) (iteration : Nat) (sweep : Sweep)
    (occurrence : Occurrence) : Sweep :=
  match rulesFor rules occurrence.letter.symbol with
  | [] => sweep.keep occurrence
  | rule :: others =>
    match setting.replacement? (rule :: others) occurrence with
    | .ok (some word) => sweep.put word
    | .ok none => sweep.keep occurrence
    | .error error =>
      let diagnostic := ⟨iteration, occurrence.index, occurrence.letter.symbol, error⟩
      (sweep.note diagnostic).keep occurrence

/-- One pass over a word, from left to right. -/
def sweep (setting : Setting) (rules : List Rule) (iteration : Nat) (word : Word) : Sweep :=
  word.occurrences.foldl (setting.advance rules iteration) {}

end Setting

/-- What a run of passes leaves behind. -/
structure Run where
  word : Word
  diagnostics : List Diagnostic
  draws : List Draw
  deriving DecidableEq

namespace Setting

/-- Runs `count` passes; the first of them has the number `iteration`. -/
def run (setting : Setting) (rules : List Rule) (iteration : Nat) : Nat → Word → Run
  | 0, word => ⟨word, [], []⟩
  | count + 1, word =>
    let swept := setting.sweep rules iteration word
    let rest := setting.run rules (iteration + 1) count swept.letters.toList
    ⟨rest.word, swept.diagnostics.toList ++ rest.diagnostics,
      setting.passDraws rules word ++ rest.draws⟩

section Lookup

variable {setting : Setting} {rules others : List Rule}

theorem sweep_congr (h : ∀ symbol, rulesFor rules symbol = rulesFor others symbol)
    (iteration : Nat) (word : Word) :
    setting.sweep rules iteration word = setting.sweep others iteration word := by
  have hadvance : setting.advance rules iteration = setting.advance others iteration := by
    funext sweep occurrence
    rw [advance, advance, h]
  rw [sweep, sweep, hadvance]

/-- A run looks rules up by their symbol and in no other way, so the order of rules of different
symbols has no part in it. -/
theorem run_congr (h : ∀ symbol, rulesFor rules symbol = rulesFor others symbol)
    (iteration count : Nat) (word : Word) :
    setting.run rules iteration count word = setting.run others iteration count word := by
  have hdraws : ∀ word, setting.passDraws rules word = setting.passDraws others word := by
    intro word
    simp only [passDraws, h]
  induction count generalizing iteration word with
  | zero => rfl
  | succ count ih => simp only [run, sweep_congr h, hdraws, ih]

end Lookup

end Setting

end GrowthGrammar

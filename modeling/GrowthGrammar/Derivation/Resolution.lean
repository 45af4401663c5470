import GrowthGrammar.Defines
import GrowthGrammar.Phrase.Normal
import GrowthGrammar.Production.Rule
import GrowthGrammar.Sampling.Sampler

/-!
# Resolving occurrences

What an occurrence becomes under the rules of its symbol. A rule applies if its condition holds and
then its surroundings match. Its successor is followed through the sets of alternatives, one draw for
each, down to a phrase, a word or a computation, which is then carried out. The rules are tried in
order, and the first that does not decline decides, be it with a replacement or with an error.

Everything is read from the word as it was before the pass.
-/

set_option autoImplicit false

namespace GrowthGrammar

/-- Why nothing could be put for an occurrence. -/
inductive DerivationError where
  | phrase (cause : PhraseError)
  | arity (mismatch : ArityMismatch)
  | sample (cause : SampleError)
  deriving DecidableEq

/-- The wording of a derivation error. -/
def DerivationError.message : DerivationError → String
  | phrase cause => cause.message
  | arity mismatch =>
    s!"'{mismatch.symbol}' declares " ++ Decimal.text mismatch.expected ++
      " parameter(s) but the occurrence carries " ++ Decimal.text mismatch.found
  | sample cause => cause.message

/-- One call of a sampler. There is no outcome when sampling failed. -/
structure Draw where
  seed : String
  weights : List Float
  outcome : Option Nat
  deriving DecidableEq

/-- A successor with no choice left in it. -/
inductive Leaf where
  | phrase (text : String)
  | word (word : Word)
  | computed (result : Occurrence → Resolution)

/-- The draws made on the way through sets of alternatives, and the leaf they lead to. -/
structure Descent where
  draws : List Draw
  leaf : Except SampleError Leaf

mutual

/-- Follows a successor down to a leaf. Every set on the way is drawn from with the same seed. -/
def Successor.descend (sampler : Sampler) (seed : String) : Successor → Descent
  | .phrase text => ⟨[], .ok (.phrase text)⟩
  | .word word => ⟨[], .ok (.word word)⟩
  | .computed result => ⟨[], .ok (.computed result)⟩
  | .stochastic alternatives =>
    let weights := alternatives.map Prod.snd
    match sampler seed weights with
    | .error cause => ⟨[⟨seed, weights, none⟩], .error cause⟩
    | .ok pick =>
      let below :=
        (descendInto sampler seed pick alternatives).getD
          ⟨[], .error (.outOfRange pick alternatives.length)⟩
      { below with draws := ⟨seed, weights, some pick⟩ :: below.draws }

/-- Follows the alternative at an index, if there is one. -/
def descendInto (sampler : Sampler) (seed : String) (pick : Nat) :
    List (Successor × Float) → Option Descent
  | [] => none
  | (successor, _) :: rest =>
    if pick = 0 then some (successor.descend sampler seed)
    else descendInto sampler seed (pick - 1) rest

end

/-- The alternative that is followed is the one at the index. -/
theorem descendInto_eq (sampler : Sampler) (seed : String) (pick : Nat)
    (alternatives : List (Successor × Float)) :
    descendInto sampler seed pick alternatives =
      alternatives[pick]?.map fun alternative => alternative.1.descend sampler seed := by
  induction alternatives generalizing pick with
  | nil => rfl
  | cons alternative rest ih =>
      rw [descendInto]
      cases pick with
      | zero => rfl
      | succ pick => exact ih pick

/-- What stays the same during one pass over a word. -/
structure Setting where
  vocabulary : Vocabulary
  defines : Defines
  sampler : Sampler

namespace Setting

/-- Whether the surroundings of a rule match around an occurrence. -/
def matchesAround (setting : Setting) (occurrence : Occurrence) (surroundings : Surroundings) :
    Bool :=
  let symbols := occurrence.word.map Letter.symbol
  let side (pattern : Option (List String)) (side : Side) : Bool :=
    match pattern with
    | some pattern => matchesContext symbols occurrence.index pattern side setting.vocabulary.ignored
    | none => true
  side surroundings.before .before && side surroundings.after .after

/-- Whether a rule applies to an occurrence. -/
def admits (setting : Setting) (rule : Rule) (occurrence : Occurrence) : Bool :=
  (match rule.condition with | some holds => holds occurrence | none => true) &&
    (match rule.surroundings with
      | some surroundings => setting.matchesAround occurrence surroundings
      | none => true)

/-- The seed of the draws for an occurrence. -/
def seed (occurrence : Occurrence) : String :=
  occurrenceSeed occurrence.letter.symbol occurrence.index

/-- Carries out a leaf: a phrase is tokenised with the parameter names bound, a word is taken as it
is, and the result of a computation stands. -/
def resolveLeaf (setting : Setting) (params : List String) (occurrence : Occurrence) :
    Leaf → Except DerivationError Resolution
  | .phrase text => do
    let letter := occurrence.letter
    let scope ← (Scope.bind setting.defines letter.symbol params letter.params).mapError .arity
    let word ← (Phrase.tokenize setting.vocabulary scope.lookup text).mapError .phrase
    return .replace (.word word)
  | .word word => .ok (.replace (.word word))
  | .computed result => .ok (result occurrence)

/-- The resolution of an occurrence under one rule. -/
def resolve (setting : Setting) (rule : Rule) (occurrence : Occurrence) :
    Except DerivationError Resolution :=
  if setting.admits rule occurrence then
    match (rule.successor.descend setting.sampler (seed occurrence)).leaf with
    | .error cause => .error (.sample cause)
    | .ok leaf => setting.resolveLeaf rule.params occurrence leaf
  else .ok .noMatch

/-- The draws that `resolve` makes. -/
def draws (setting : Setting) (rule : Rule) (occurrence : Occurrence) : List Draw :=
  if setting.admits rule occurrence then
    (rule.successor.descend setting.sampler (seed occurrence)).draws
  else []

/-- The resolution under the first rule that does not decline. -/
def resolveFirst (setting : Setting) (occurrence : Occurrence) :
    List Rule → Except DerivationError Resolution
  | [] => .ok .noMatch
  | rule :: rules =>
    match setting.resolve rule occurrence with
    | .ok .noMatch => setting.resolveFirst occurrence rules
    | decided => decided

/-- The draws that `resolveFirst` makes. -/
def drawsFirst (setting : Setting) (occurrence : Occurrence) : List Rule → List Draw
  | [] => []
  | rule :: rules =>
    setting.draws rule occurrence ++
      match setting.resolve rule occurrence with
      | .ok .noMatch => setting.drawsFirst occurrence rules
      | _ => []

end Setting

end GrowthGrammar

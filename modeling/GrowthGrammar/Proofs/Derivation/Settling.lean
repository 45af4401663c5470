import GrowthGrammar.Proofs.Derivation.Sweep

/-!
# What the rules settle

What becomes of an occurrence is settled by the rules of its symbol, tried in order
(`Setting.Settles`): the first that does not decline puts a word for it or fails, and a word that is
put has to be normalised. A pass is made of these outcomes alone: the image of an occurrence is what
its outcome leaves (`image_eq`), and its diagnostics are the outcomes that fail
(`mem_passDiagnostics_iff_failsAt`).
-/

set_option autoImplicit false

namespace GrowthGrammar

/-! ## Outcomes -/

/-- What may come of rules that are tried in order on an occurrence: a word to put for it, nothing,
or an error. -/
inductive Setting.Settles (setting : Setting) (occurrence : Occurrence) :
    List Rule → Except DerivationError (Option Word) → Prop where
  | exhausted : Settles setting occurrence [] (.ok none)
  | declined {rule : Rule} {rules : List Rule} {outcome : Except DerivationError (Option Word)}
      (declines : setting.resolve rule occurrence = .ok .noMatch)
      (rest : Settles setting occurrence rules outcome) :
      Settles setting occurrence (rule :: rules) outcome
  | failed {rule : Rule} {rules : List Rule} {error : DerivationError}
      (fails : setting.resolve rule occurrence = .error error) :
      Settles setting occurrence (rule :: rules) (.error error)
  | refused {rule : Rule} {rules : List Rule} {source : Source} {error : DerivationError}
      (replaces : setting.resolve rule occurrence = .ok (.replace source))
      (refuses : setting.normalize source = .error error) :
      Settles setting occurrence (rule :: rules) (.error error)
  | replaced {rule : Rule} {rules : List Rule} {source : Source} {word : Word}
      (replaces : setting.resolve rule occurrence = .ok (.replace source))
      (normal : setting.normalize source = .ok word) :
      Settles setting occurrence (rule :: rules) (.ok (some word))

/-- What stands for a letter in the next word. -/
def Letter.replacedBy (letter : Letter) : Except DerivationError (Option Word) → Word
  | .ok (some word) => word
  | .ok none => [letter]
  | .error _ => [letter]

/-- A diagnostic names a position of the word, the symbol there, and the error with which the rules
of that symbol end. -/
def Setting.FailsAt (setting : Setting) (rules : List Rule) (word : Word)
    (diagnostic : Diagnostic) : Prop :=
  ∃ i : Fin word.length, diagnostic.index = i ∧
    diagnostic.symbol = (word.occurrence i).letter.symbol ∧
    setting.Settles (word.occurrence i) (rulesFor rules diagnostic.symbol) (.error diagnostic.error)

namespace Setting

variable {setting : Setting} {rules : List Rule} {occurrence : Occurrence}

theorem settles_replacement? (setting : Setting) (rules : List Rule) (occurrence : Occurrence) :
    setting.Settles occurrence rules (setting.replacement? rules occurrence) := by
  induction rules with
  | nil => exact .exhausted
  | cons rule rules ih =>
      unfold replacement? resolveFirst
      cases hresolve : setting.resolve rule occurrence with
      | error error => exact .failed hresolve
      | ok resolution =>
          cases resolution with
          | noMatch => exact .declined hresolve ih
          | replace source =>
              dsimp only [bind, Except.bind]
              cases hnormal : setting.normalize source with
              | error error => exact .refused hresolve hnormal
              | ok word => exact .replaced hresolve hnormal

/-- The rules settle what comes of an occurrence. -/
theorem settles_iff {outcome : Except DerivationError (Option Word)} :
    setting.Settles occurrence rules outcome ↔ setting.replacement? rules occurrence = outcome := by
  constructor
  · intro h
    induction h with
    | exhausted => rfl
    | declined declines rest ih =>
        unfold replacement? at ih ⊢
        rw [resolveFirst, declines]
        exact ih
    | failed fails => simp [replacement?, resolveFirst, fails, bind, Except.bind]
    | refused replaces refuses =>
        simp [replacement?, resolveFirst, replaces, refuses, bind, Except.bind]
    | replaced replaces normal =>
        simp [replacement?, resolveFirst, replaces, normal, bind, Except.bind, pure, Except.pure]
  · rintro rfl
    exact settles_replacement? setting rules occurrence

theorem image_eq (setting : Setting) (rules : List Rule) (occurrence : Occurrence) :
    setting.image rules occurrence = occurrence.letter.replacedBy
      (setting.replacement? (rulesFor rules occurrence.letter.symbol) occurrence) := by
  unfold image
  rw [derive_eq]
  rcases setting.replacement? (rulesFor rules occurrence.letter.symbol) occurrence with
    error | _ | word <;> rfl

theorem derive_eq_error_iff {error : DerivationError} :
    setting.derive rules occurrence = .error error ↔
      setting.Settles occurrence (rulesFor rules occurrence.letter.symbol) (.error error) := by
  rw [derive_eq, settles_iff]
  cases setting.replacement? (rulesFor rules occurrence.letter.symbol) occurrence <;>
    simp [Except.map]

theorem mem_passDiagnostics_iff_failsAt {iteration : Nat} {word : Word}
    {diagnostic : Diagnostic} :
    diagnostic ∈ setting.passDiagnostics rules iteration word ↔
      diagnostic.iteration = iteration ∧ setting.FailsAt rules word diagnostic := by
  rw [mem_passDiagnostics_iff]
  refine and_congr_right fun _ => exists_congr fun i => and_congr_right fun _ => ?_
  refine and_congr_right fun hsymbol => ?_
  rw [derive_eq_error_iff, hsymbol]
  exact Iff.rfl

end Setting

end GrowthGrammar

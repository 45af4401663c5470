import GrowthGrammar.Proofs.Expression.Grammar
import Mathlib.Data.List.Basic

/-!
# Where an expression breaks off

Tokens that some further tokens would complete to an expression are viable. What is not an expression
breaks off at the first token that leaves nothing viable, or else, if all of it is viable, at its
end (`Breaks`), and this is what the error names (`ofTokens_eq_error_iff`, `parse_reports_break`).
Tokens are viable exactly as long as reading them goes on (`isViable_iff`): every reading that is
reached can be completed, by one operand at most and the parentheses that are still open.
-/

set_option autoImplicit false

namespace GrowthGrammar

/-! ## Readings -/

namespace Reading

variable {reading next : Reading} {token : Token} {tokens before : List Token}

/-- The reading behind some tokens, if each of them can follow those before it. -/
def behind? (reading : Reading) (tokens : List Token) : Option Reading :=
  tokens.foldlM step reading

theorem behind?_cons (reading : Reading) (token : Token) (tokens : List Token) :
    reading.behind? (token :: tokens) = (reading.step token).bind (·.behind? tokens) := by
  rw [behind?, List.foldlM_cons]
  rfl

theorem behind?_concat (h : reading.behind? before = some next) (token : Token) :
    reading.behind? (before ++ [token]) = next.step token := by
  rw [behind?] at h
  rw [behind?, List.foldlM_append, h]
  show (next.step token).bind some = next.step token
  exact Option.bind_fun_some _

/-- Behind some tokens, reading goes on with the reading that they have led to. -/
theorem run_append (h : reading.behind? before = some next) (rest : List Token) :
    reading.run (before ++ rest) = next.run rest := by
  induction before generalizing reading with
  | nil =>
      cases h
      rfl
  | cons token before ih =>
      rw [behind?_cons] at h
      obtain ⟨after, hstep, hbehind⟩ := Option.bind_eq_some_iff.1 h
      rw [List.cons_append, run_cons hstep, ih hbehind]

/-- Tokens that can all be read are an expression if the reading behind them is complete. -/
theorem run_of_behind? (h : reading.behind? tokens = some next) :
    reading.run tokens = next.run [] := by
  rw [← run_append h, List.append_nil]

/-- A token that cannot follow is reported, whatever comes after it. -/
theorem run_of_stuck (h : reading.behind? before = some next) (hstuck : next.step token = none)
    (after : List Token) : reading.run (before ++ token :: after) = .error (some token) := by
  rw [run_append h, run, hstuck]

/-- Among tokens that cannot all be read there is a first one that cannot follow. -/
theorem exists_stuck (h : reading.behind? tokens = none) :
    ∃ before token after next, tokens = before ++ token :: after ∧
      reading.behind? before = some next ∧ next.step token = none := by
  induction tokens generalizing reading with
  | nil => cases h
  | cons token tokens ih =>
      cases hstep : reading.step token with
      | none => exact ⟨[], token, tokens, reading, rfl, rfl, hstep⟩
      | some following =>
          rw [behind?_cons, hstep] at h
          obtain ⟨before, other, after, next, rfl, hbefore, hstuck⟩ := ih h
          refine ⟨token :: before, other, after, next, rfl, ?_, hstuck⟩
          rw [behind?_cons, hstep]
          exact hbefore

/-- Closing the open parentheses behind an operand completes the text. -/
theorem exists_run_ended (operand : Expression) (level : Level) (outer : List Level) :
    ∃ rest e, (ended operand level outer).run rest = .ok e := by
  induction outer generalizing operand level with
  | nil => exact ⟨[], _, rfl⟩
  | cons enclosing outer ih =>
      obtain ⟨rest, e, hrun⟩ := ih (Level.negated enclosing.negations (level.closeSum operand))
        { enclosing with negations := 0 }
      exact ⟨.closeParen :: rest, e, hrun⟩

/-- **No reading is a dead end.** Some tokens complete it. -/
theorem exists_run_eq_ok (reading : Reading) : ∃ rest e, reading.run rest = .ok e := by
  cases reading with
  | operand level outer =>
      -- any operand will do, here a name
      obtain ⟨rest, e, hrun⟩ := exists_run_ended
        (Level.negated level.negations (.name "x")) { level with negations := 0 } outer
      exact ⟨.name "x" :: rest, e, hrun⟩
  | ended operand level outer => exact exists_run_ended operand level outer

end Reading

/-! ## Viable tokens -/

namespace Expression

variable {tokens before : List Token} {token : Token} {found : Option Token}

/-- Tokens that are the beginning of an expression. -/
def IsViable (tokens : List Token) : Prop :=
  ∃ rest e, Derives .sum (tokens ++ rest) e

/-- What keeps tokens from being an expression: the first one that no expression has after those
before it, or none if only the end comes too early. -/
inductive Breaks (tokens : List Token) : Option Token → Prop where
  | token {before after : List Token} {token : Token} (split : tokens = before ++ token :: after)
      (viable : IsViable before) (stuck : ¬IsViable (before ++ [token])) :
      Breaks tokens (some token)
  | ending (viable : IsViable tokens) (incomplete : ∀ e, ¬Derives .sum tokens e) :
      Breaks tokens none

/-- Tokens are viable exactly as long as they can be read one after the other. -/
theorem isViable_iff : IsViable tokens ↔ ∃ reading, Reading.start.behind? tokens = some reading := by
  constructor
  · rintro ⟨rest, e, hderives⟩
    cases hbehind : Reading.start.behind? tokens with
    | some reading => exact ⟨reading, rfl⟩
    | none =>
        obtain ⟨before, token, after, next, rfl, hbefore, hstuck⟩ := Reading.exists_stuck hbehind
        have hread := ofTokens_of_derives hderives
        rw [ofTokens, List.append_assoc, List.cons_append,
          Reading.run_of_stuck hbefore hstuck] at hread
        cases hread
  · rintro ⟨reading, hreading⟩
    obtain ⟨rest, e, hrun⟩ := reading.exists_run_eq_ok
    rw [← Reading.run_append hreading] at hrun
    have hderives := Reading.derives_of_run Reading.reads_start hrun
    exact ⟨rest, e, hderives⟩

theorem isViable_concat_iff {next : Reading} (h : Reading.start.behind? before = some next) :
    IsViable (before ++ [token]) ↔ ∃ reading, next.step token = some reading := by
  rw [isViable_iff, Reading.behind?_concat h]

/-- **Errors name the break.** Reading fails exactly where the tokens break off. -/
theorem ofTokens_eq_error_iff : ofTokens tokens = .error found ↔ Breaks tokens found := by
  constructor
  · intro h
    cases hbehind : Reading.start.behind? tokens with
    | none =>
        obtain ⟨before, token, after, next, rfl, hbefore, hstuck⟩ := Reading.exists_stuck hbehind
        rw [ofTokens, Reading.run_of_stuck hbefore hstuck] at h
        cases h
        refine .token rfl (isViable_iff.2 ⟨next, hbefore⟩) ?_
        rw [isViable_concat_iff hbefore, hstuck]
        rintro ⟨reading, hreading⟩
        cases hreading
    | some next =>
        have hincomplete : ∀ e, ¬Derives .sum tokens e := by
          intro e hderives
          rw [ofTokens_of_derives hderives] at h
          cases h
        rw [ofTokens, Reading.run_of_behind? hbehind, Reading.run] at h
        split at h
        · cases h
        · cases h
          exact .ending (isViable_iff.2 ⟨next, hbehind⟩) hincomplete
  · intro h
    cases h with
    | @token before after token split viable stuck =>
        obtain ⟨next, hbefore⟩ := isViable_iff.1 viable
        rw [isViable_concat_iff hbefore, ← Option.isSome_iff_exists,
          Option.not_isSome_iff_eq_none] at stuck
        rw [ofTokens, split, Reading.run_of_stuck hbefore stuck]
    | ending viable incomplete =>
        obtain ⟨next, hbehind⟩ := isViable_iff.1 viable
        have hrun := Reading.run_of_behind? hbehind
        cases hcomplete : next.complete? with
        | none => rw [ofTokens, hrun, Reading.run, hcomplete]
        | some e =>
            rw [Reading.run, hcomplete] at hrun
            exact absurd (Reading.derives_of_run Reading.reads_start hrun) (incomplete e)

/-- **Errors name the first token out of place.** A text of tokens that is no expression is refused.
The error names the first token with which the text is no longer the beginning of an expression, or
the end, if all of it is the beginning of one. -/
theorem parse_reports_break {source : String} (hlexed : (lex source).fault = none)
    (hnone : ∀ e, ¬Derives .sum ((lex source).tokens.map Spanned.token) e) :
    ∃ found, parse source = .error (.unexpected source found) ∧
      Breaks ((lex source).tokens.map Spanned.token) found ∧
      (∀ other, Breaks ((lex source).tokens.map Spanned.token) other → other = found) ∧
      (∀ token, found = some token → (ExpressionError.unexpected source found).message =
        "invalid expression '" ++ source ++ "': " ++ ("unexpected " ++ token.describe)) ∧
      (found = none → (ExpressionError.unexpected source found).message =
        "invalid expression '" ++ source ++ "': " ++ "unexpected end of expression") := by
  cases hread : ofTokens ((lex source).tokens.map Spanned.token) with
  | ok e =>
      exact absurd (Reading.derives_of_run Reading.reads_start hread) (hnone e)
  | error found =>
      refine ⟨found, ?_, ofTokens_eq_error_iff.1 hread, fun other hother => ?_, ?_, ?_⟩
      · rw [parse]
        simp only [hlexed, hread]
        rfl
      · rw [← ofTokens_eq_error_iff, hread] at hother
        exact (Except.error.inj hother).symm
      · rintro token rfl
        rfl
      · rintro rfl
        rfl

/-- In `2*(3+)` the closing parenthesis is out of place, not the sign before it. -/
theorem parse_reports_break_in_group :
    parse "2*(3+)" = .error (.unexpected "2*(3+)" (some .closeParen)) ∧
      (ExpressionError.unexpected "2*(3+)" (some .closeParen)).message =
        "invalid expression '2*(3+)': unexpected CloseParen" ∧
      Breaks ((lex "2*(3+)").tokens.map Spanned.token) (some .closeParen) := by
  have hlexed : (lex "2*(3+)").fault = none := by decide +kernel
  have hread : ofTokens ((lex "2*(3+)").tokens.map Spanned.token) = .error (some .closeParen) := by
    decide +kernel
  have hnone : ∀ e, ¬Derives .sum ((lex "2*(3+)").tokens.map Spanned.token) e := by
    intro e hderives
    rw [ofTokens_of_derives hderives] at hread
    cases hread
  obtain ⟨found, hparse, hbreaks, hunique, hmessage, -⟩ := parse_reports_break hlexed hnone
  obtain rfl : some .closeParen = found := hunique _ (ofTokens_eq_error_iff.1 hread)
  exact ⟨hparse, hmessage _ rfl, hbreaks⟩

end Expression

end GrowthGrammar

import GrowthGrammar.Proofs.Expression.Grammar

/-!
# Ordered choice

The grammar of expressions as a parser of ordered choices and greedy repetitions. A choice keeps
to its first alternative that succeeds; a repetition takes items until one fails, and gives back
what it has taken of that one. What the parser remembers from going back is the farthest place at
which a token did not fit, and if the text is refused in the end, this is the place reported.

Reading token by token never goes back and still comes to the same (`ofTokens_eq_toExcept`): to the
same tree, or to the same token out of place. On every part of a text, parser and reading agree in
one of three ways (`Agrees`). They have both come to the end of the part, or both have failed at one
place, or the parser has given back an operator whose right side breaks off, where reading has
failed. In the last case nothing can follow the part, and whatever the parser tries from then on is
in front of the break, so that it fails as well, and the break stays the farthest place.
-/

set_option autoImplicit false

namespace GrowthGrammar.Choice

open Expression

variable {α β γ : Type}

/-! ## Parsers -/

/-- What a parser makes of tokens. A place in the text is given by the tokens from there on. -/
inductive Result (α : Type) where
  /-- A value, the place behind it, and the farthest place at which a token did not fit, if there
  was one on the way. -/
  | parsed (value : α) (rest : List Token) (tried : Option (List Token))
  /-- The place of the token that does not fit. -/
  | failed (place : List Token)
  deriving DecidableEq

/-- Parsers begin at a place in the text. -/
abbrev Parser (α : Type) := List Token → Result α

/-- The farther one of two places, and the first if they are the same. -/
def farther (place other : List Token) : List Token :=
  if other.length < place.length then other else place

namespace Result

/-- Changes the value. -/
def map (f : α → β) : Result α → Result β
  | parsed value rest tried => .parsed (f value) rest tried
  | failed place => .failed place

/-- The result behind a part in which another place was tried. -/
def behind (tried : Option (List Token)) : Result α → Result α
  | parsed value rest others => .parsed value rest (Option.merge farther tried others)
  | failed place => .failed (tried.elim place (farther place))

theorem map_behind (f : α → β) (tried : Option (List Token)) (result : Result α) :
    (result.behind tried).map f = (result.map f).behind tried := by
  cases result <;> rfl

theorem map_self (result : Result α) : result.map (fun value => value) = result := by
  cases result <;> rfl

theorem behind_none (result : Result α) : result.behind none = result := by
  cases result with
  | parsed value rest others => cases others <;> rfl
  | failed place => rfl

theorem map_map (f : α → β) (g : β → γ) (result : Result α) :
    (result.map f).map g = result.map (g ∘ f) := by
  cases result <;> rfl

/-- The value, or the token that does not fit; none at the end of the text. -/
def toExcept : Result α → Except (Option Token) α
  | parsed value _ _ => .ok value
  | failed place => .error place.head?

end Result

/-- One token of a kind. -/
def pick (kind : Token → Option α) : Parser α
  | [] => .failed []
  | token :: rest =>
    match kind token with
    | some value => .parsed value rest none
    | none => .failed (token :: rest)

/-- One certain token. -/
def just (token : Token) (value : α) : Parser α :=
  pick fun other => if other = token then some value else none

/-- The end of the text. -/
def finished : Parser Unit
  | [] => .parsed () [] none
  | token :: rest => .failed (token :: rest)

/-- One part after another. -/
def seq (combine : α → β → γ) (first : Parser α) (second : Parser β) : Parser γ := fun tokens =>
  match first tokens with
  | .parsed value rest tried => ((second rest).map (combine value)).behind tried
  | .failed place => .failed place

/-- Ordered choice. The second alternative is tried only if the first one fails. -/
def either (first second : Parser α) : Parser α := fun tokens =>
  match first tokens with
  | .parsed value rest tried => .parsed value rest tried
  | .failed place =>
    match second tokens with
    | .parsed value rest tried => .parsed value rest (Option.merge farther tried (some place))
    | .failed other => .failed (farther place other)

/-- Greedy repetition. What was taken of an item that fails is given back. An item without tokens
would be the last one. -/
def many (item : Parser α) (tokens : List Token) : Result (List α) :=
  match item tokens with
  | .parsed value rest tried =>
    if rest.length < tokens.length then ((many item rest).map (value :: ·)).behind tried
    else .parsed [value] rest tried
  | .failed place => .parsed [] tokens (some place)
termination_by tokens.length

section Combinators

variable {combine : α → β → γ} {first : Parser α} {second : Parser β} {value : α}
  {tokens rest place : List Token} {tried : Option (List Token)}

theorem seq_of_parsed (h : first tokens = .parsed value rest tried) :
    seq combine first second tokens = ((second rest).map (combine value)).behind tried := by
  rw [seq, h]

theorem seq_of_failed (h : first tokens = .failed place) :
    seq combine first second tokens = .failed place := by
  rw [seq, h]

theorem many_of_parsed (h : first tokens = .parsed value rest tried)
    (hshorter : rest.length < tokens.length) :
    many first tokens = ((many first rest).map (value :: ·)).behind tried := by
  rw [many, h]
  exact if_pos hshorter

theorem many_of_failed (h : first tokens = .failed place) :
    many first tokens = .parsed [] tokens (some place) := by
  rw [many, h]

end Combinators

/-! ## The grammar -/

/-- A number. -/
def number : Parser Expression :=
  pick fun token => match token with
    | .number literal => some (.number literal.toFloat)
    | _ => none

/-- A name. -/
def name : Parser Expression :=
  pick fun token => match token with
    | .name text => some (.name text)
    | _ => none

/-- A sum in parentheses. -/
def group (sum : Parser Expression) : Parser Expression :=
  seq (fun e _ => e) (seq (fun _ e => e) (just .openParen ()) sum) (just .closeParen ())

/-- An operand without signs. -/
def atom (sum : Parser Expression) : Parser Expression :=
  either (either number name) (group sum)

/-- A sign before an operand. -/
def sign : Parser Sign :=
  either (just .minus .minus) (just .plus .plus)

/-- An operand behind any number of signs. -/
def unary (atom : Parser Expression) : Parser Expression :=
  seq (fun signs e => signs.foldr Sign.apply e) (many sign) atom

/-- An operator of two. -/
def operator (first second : Operator) : Parser Operator :=
  either (just first.token first) (just second.token second)

/-- The tree of a left side joined with an operator and the right side. -/
def joined (left : Expression) (step : Operator × Expression) : Expression :=
  .binary step.1 left step.2

/-- Operands with operators between them, which associate to the left. -/
def chain (first second : Operator) (operand : Parser Expression) : Parser Expression :=
  seq (fun e steps => steps.foldl joined e) operand
    (many (seq Prod.mk (operator first second) operand))

/-- A sum, with less than `depth` parentheses inside each other. -/
def sum : Nat → Parser Expression
  | 0 => fun tokens => .failed tokens
  | depth + 1 => chain .add .subtract (chain .multiply .divide (unary (atom (sum depth))))

/-- A whole text. -/
def whole (depth : Nat) : Parser Expression :=
  seq (fun e _ => e) (sum depth) finished

/-! ## Farthest places -/

section Places

variable {place other rest tokens : List Token} {tried others : Option (List Token)}

theorem farther_eq_left (h : place.length ≤ other.length) : farther place other = place :=
  if_neg (Nat.not_lt.2 h)

theorem farther_eq_right (h : other.length < place.length) : farther place other = other :=
  if_pos h

/-- No place that was tried lies behind the rest. -/
def Within (rest : List Token) (tried : Option (List Token)) : Prop :=
  ∀ place ∈ tried, rest.length ≤ place.length

theorem within_none : Within rest none := by
  intro place hplace
  cases hplace

theorem within_some (h : rest.length ≤ place.length) : Within rest (some place) := by
  intro other hother
  cases hother
  exact h

theorem Within.mono (h : Within tokens tried) (hle : rest.length ≤ tokens.length) :
    Within rest tried :=
  fun place hplace => Nat.le_trans hle (h place hplace)

theorem Within.merge (h : Within rest tried) (h' : Within rest others) :
    Within rest (Option.merge farther tried others) := by
  cases others with
  | none => cases tried <;> exact h
  | some other =>
      cases tried with
      | none => exact h'
      | some place =>
          have hplace := h place rfl
          have hother := h' other rfl
          refine within_some ?_
          unfold farther
          split <;> assumption

/-- A place behind all others is the farthest. -/
theorem Within.merge_some (h : Within rest tried) (hlt : place.length < rest.length) :
    Option.merge farther tried (some place) = some place := by
  cases tried with
  | none => rfl
  | some other =>
      have hle := h other rfl
      exact congrArg some (farther_eq_right (Nat.lt_of_lt_of_le hlt hle))

theorem Within.elim (h : Within place tried) : tried.elim place (farther place) = place := by
  cases tried with
  | none => rfl
  | some other => exact farther_eq_left (h other rfl)

end Places

/-! ## Agreement with reading -/

/-- Whether tokens begin with one of a kind. -/
def begins (kind : Token → Bool) : List Token → Bool
  | [] => false
  | token :: _ => kind token

/-- Whether a token is one of two. -/
def isOneOf (first second token : Token) : Bool :=
  token = first || token = second

/-- One of two tokens is parsed where there is one. -/
theorem either_just_cases (first second : Token) (x y : α) (tokens : List Token) :
    (either (just first x) (just second y) tokens = .failed tokens ∧
      begins (isOneOf first second) tokens = false) ∨
    ∃ token value rest tried, (token = first ∧ value = x ∨ token = second ∧ value = y) ∧
      tokens = token :: rest ∧
      either (just first x) (just second y) tokens = .parsed value rest tried ∧
      Within tokens tried := by
  cases tokens with
  | nil => exact .inl ⟨rfl, rfl⟩
  | cons token rest =>
      by_cases hfirst : token = first
      · refine .inr ⟨token, x, rest, none, .inl ⟨hfirst, rfl⟩, rfl, ?_, within_none⟩
        simp [either, just, pick, hfirst]
      · by_cases hsecond : token = second
        · refine .inr ⟨token, y, rest, _, .inr ⟨hsecond, rfl⟩, rfl, ?_,
            within_some (Nat.le_refl _)⟩
          subst hsecond
          simp [either, just, pick, hfirst, Option.merge]
        · refine .inl ⟨?_, by simp [begins, isOneOf, hfirst, hsecond]⟩
          simp [either, just, pick, hfirst, hsecond, farther]

/-- What a parser makes of tokens agrees with reading them. Where a part has been parsed, reading
has come to the end of an operand with the tree of the part, and the part does not go on. Where the
parser has failed, reading fails at the same place. -/
inductive Agrees (goesOn : Token → Bool) (reading : Reading) (level : Level) (outer : List Level)
    (tokens : List Token) : Result Expression → Prop where
  | parsed {e : Expression} {rest : List Token} {tried : Option (List Token)}
      (shorter : rest.length ≤ tokens.length) (ends : begins goesOn rest = false)
      (within : Within rest tried)
      (reads : reading.run tokens = (Reading.finish e level outer).run rest) :
      Agrees goesOn reading level outer tokens (.parsed e rest tried)
  | failed {place : List Token} (shorter : place.length ≤ tokens.length)
      (fails : reading.run tokens = .error place.head?) :
      Agrees goesOn reading level outer tokens (.failed place)
  /-- The part goes on in a way that breaks off, so the parser has given this up. Reading fails
  where it breaks off. -/
  | stuck {e : Expression} {rest place : List Token} (shorter : rest.length ≤ tokens.length)
      (continues : begins goesOn rest = true) (beyond : place.length < rest.length)
      (fails : reading.run tokens = .error place.head?) :
      Agrees goesOn reading level outer tokens (.parsed e rest (some place))

section Agreement

variable {goesOn : Token → Bool} {reading next : Reading} {level : Level} {outer : List Level}
  {tokens rest : List Token} {tried : Option (List Token)} {result : Result Expression}

/-- Agreement behind a part is agreement from the beginning of the part. -/
theorem Agrees.behind (h : Agrees goesOn next level outer rest result)
    (hreads : reading.run tokens = next.run rest) (hshorter : rest.length ≤ tokens.length)
    (hwithin : Within rest tried) :
    Agrees goesOn reading level outer tokens (result.behind tried) := by
  cases h with
  | parsed shorter ends within reads =>
      exact .parsed (Nat.le_trans shorter hshorter) ends ((hwithin.mono shorter).merge within)
        (hreads.trans reads)
  | failed shorter fails =>
      rw [Result.behind, (hwithin.mono shorter).elim]
      exact .failed (Nat.le_trans shorter hshorter) (hreads.trans fails)
  | stuck shorter continues beyond fails =>
      rw [Result.behind, (hwithin.mono shorter).merge_some beyond]
      exact .stuck (Nat.le_trans shorter hshorter) continues beyond (hreads.trans fails)

/-- Agreement behind a token is agreement from the token, where another alternative has failed at
it. -/
theorem Agrees.either {first second : Parser Expression}
    (h : Agrees goesOn next level outer rest (second tokens))
    (hfirst : first tokens = .failed tokens) (hreads : reading.run tokens = next.run rest)
    (hshorter : rest.length < tokens.length) :
    Agrees goesOn reading level outer tokens (either first second tokens) := by
  generalize hsecond : second tokens = result at h
  cases h with
  | @parsed _ rest' _ shorter ends within reads =>
      have hle : rest'.length ≤ tokens.length := by omega
      simp only [Choice.either, hfirst, hsecond]
      exact .parsed hle ends (within.merge (within_some hle)) (hreads.trans reads)
  | @failed place shorter fails =>
      have hlt : place.length < tokens.length := by omega
      simp only [Choice.either, hfirst, hsecond, farther_eq_right hlt]
      exact .failed (Nat.le_of_lt hlt) (hreads.trans fails)
  | @stuck _ _ place shorter continues beyond fails =>
      have hle : place.length ≤ tokens.length := by omega
      simp only [Choice.either, hfirst, hsecond, Option.merge, farther_eq_left hle]
      exact .stuck (by omega) continues beyond (hreads.trans fails)

/-- Agreement does not depend on how the tree comes about, in the parser or in the level. -/
theorem Agrees.map {level' : Level} {f : Expression → Expression}
    (h : Agrees goesOn reading level outer tokens result)
    (hfinish : ∀ e, Reading.finish e level outer = Reading.finish (f e) level' outer) :
    Agrees goesOn reading level' outer tokens (result.map f) := by
  cases h with
  | @parsed e _ _ shorter ends within reads =>
      exact .parsed shorter ends within (reads.trans (by rw [hfinish e]))
  | failed shorter fails => exact .failed shorter fails
  | stuck shorter continues beyond fails => exact .stuck shorter continues beyond fails

end Agreement

/-! ## Chains of operators -/

/-- The tokens with which a level goes on: its operators, and those with which its operands do. -/
def extending (first second : Operator) (inside : Token → Bool) (token : Token) : Bool :=
  isOneOf first.token second.token token || inside token

theorem begins_extending (first second : Operator) (inside : Token → Bool) (tokens : List Token) :
    begins (extending first second inside) tokens =
      (begins (isOneOf first.token second.token) tokens || begins inside tokens) := by
  cases tokens <;> rfl

theorem begins_operator {first second op : Operator} (h : op = first ∨ op = second)
    (inside : Token → Bool) (rest : List Token) :
    begins (extending first second inside) (op.token :: rest) = true := by
  rcases h with rfl | rfl <;> simp [begins, extending, isOneOf]

/-- An operator is parsed where there is one. -/
theorem operator_cases (first second : Operator) (tokens : List Token) :
    (operator first second tokens = .failed tokens ∧
      begins (isOneOf first.token second.token) tokens = false) ∨
    ∃ op rest tried, (op = first ∨ op = second) ∧ tokens = op.token :: rest ∧
      operator first second tokens = .parsed op rest tried ∧ Within tokens tried := by
  rcases either_just_cases first.token second.token first second tokens with
    hnone | ⟨token, op, rest, tried, ⟨rfl, rfl⟩ | ⟨rfl, rfl⟩, rfl, hparsed, hwithin⟩
  · exact .inl hnone
  · exact .inr ⟨_, rest, tried, .inl rfl, rfl, hparsed, hwithin⟩
  · exact .inr ⟨_, rest, tried, .inr rfl, rfl, hparsed, hwithin⟩

/-- A level of the grammar in a reading: its operators, the tokens with which its operands go on,
and where a left side waits for its right one. -/
structure IsChain (first second : Operator) (inside : Token → Bool)
    (level : Option (Expression × Operator) → Level) (outer : List Level) : Prop where
  separate : ∀ op, op = first ∨ op = second → inside op.token = false
  /-- An operand that has come to its end is joined with the left side that waits for it. -/
  joins : ∀ waiting e rest, begins inside rest = false →
    (Reading.finish e (level waiting) outer).run rest =
      (Reading.finish (Level.join waiting e) (level none) outer).run rest
  /-- Behind an operator the left side waits. -/
  waits : ∀ op, op = first ∨ op = second → ∀ e,
    (Reading.finish e (level none) outer).step op.token =
      some (.operand (level (some (e, op))) outer)

section Chains

variable {first second : Operator} {inside : Token → Bool}
  {level : Option (Expression × Operator) → Level} {outer : List Level}
  {operand : Parser Expression} {bound : Nat} {tokens rest place : List Token}

/-- Behind an operand that breaks off there is no operator of the level, so that the repetition ends
and the place where the operand breaks off stays the farthest. -/
theorem many_behind_of_inside (hchain : IsChain first second inside level outer)
    (hinside : begins inside rest = true) (hbeyond : place.length < rest.length)
    (f : List (Operator × Expression) → α) :
    ((many (seq Prod.mk (operator first second) operand) rest).map f).behind (some place) =
      .parsed (f []) rest (some place) := by
  have hitem : seq Prod.mk (operator first second) operand rest = .failed rest := by
    rcases operator_cases first second rest with ⟨hfailed, -⟩ | ⟨op, tail, tried, hop, rfl, -⟩
    · exact seq_of_failed hfailed
    · exact absurd ((hchain.separate op hop).symm.trans hinside) Bool.false_ne_true
  rw [many_of_failed hitem, Result.map, Result.behind, Option.merge,
    farther_eq_left (Nat.le_of_lt hbeyond)]

/-- **Repetition.** Behind an operand, operators of the level and their right sides are parsed as
they are read. -/
theorem agrees_many (hchain : IsChain first second inside level outer)
    (hoperand : ∀ waiting tokens, tokens.length ≤ bound →
      Agrees inside (.operand (level waiting) outer) (level waiting) outer tokens (operand tokens))
    (hbound : rest.length ≤ bound) (hends : begins inside rest = false) (e : Expression) :
    Agrees (extending first second inside) (Reading.finish e (level none) outer) (level none) outer
      rest
      ((many (seq Prod.mk (operator first second) operand) rest).map (List.foldl joined e)) := by
  induction hlength : rest.length using Nat.strongRecOn generalizing rest e with
  | _ n ih =>
  subst hlength
  rcases operator_cases first second rest with
    ⟨hfailed, hnone⟩ | ⟨op, tail, tried, hop, rfl, hparsed, hwithin⟩
  · -- no operator follows, so the level ends here
    rw [many_of_failed (seq_of_failed hfailed)]
    refine .parsed (Nat.le_refl _) ?_ (within_some (Nat.le_refl _)) rfl
    rw [begins_extending, hnone, hends, Bool.or_false]
  · have hitem : seq Prod.mk (operator first second) operand (op.token :: tail) =
        ((operand tail).map (Prod.mk op)).behind tried :=
      seq_of_parsed hparsed
    have hread := Reading.run_cons (hchain.waits op hop e) tail
    have hlength : (op.token :: tail).length = tail.length + 1 := rfl
    have htail := hoperand (some (e, op)) tail (by omega)
    generalize operand tail = right at hitem htail
    cases htail with
    | @failed place shorter fails =>
        -- the operator is given back, but reading does not get over the break either
        have hlt : place.length < (op.token :: tail).length := by omega
        rw [Result.map, Result.behind, (hwithin.mono (Nat.le_of_lt hlt)).elim] at hitem
        rw [many_of_failed hitem]
        exact .stuck (Nat.le_refl _) (begins_operator hop inside tail) hlt (hread.trans fails)
    | @parsed e' rest tried' shorter ends within reads =>
        have hlt : rest.length < (op.token :: tail).length := by omega
        have hmore := ih rest.length hlt (by omega) ends (joined e (op, e')) rfl
        rw [many_of_parsed hitem hlt, Result.map_behind, Result.map_map]
        refine hmore.behind ?_ (Nat.le_of_lt hlt) ((hwithin.mono (Nat.le_of_lt hlt)).merge within)
        exact hread.trans (reads.trans (hchain.joins (some (e, op)) e' rest ends))
    | @stuck e' rest place shorter continues beyond fails =>
        have hlt : rest.length < (op.token :: tail).length := by omega
        rw [Result.map, Result.behind,
          (hwithin.mono (Nat.le_of_lt hlt)).merge_some beyond] at hitem
        rw [many_of_parsed hitem hlt, Result.map_behind, Result.map_map,
          many_behind_of_inside hchain continues beyond]
        refine .stuck (Nat.le_of_lt hlt) ?_ beyond (hread.trans fails)
        rw [begins_extending, continues, Bool.or_true]

/-- **Levels.** Operands with operators between them are parsed as they are read. -/
theorem agrees_chain (hchain : IsChain first second inside level outer)
    (hoperand : ∀ waiting tokens, tokens.length ≤ bound →
      Agrees inside (.operand (level waiting) outer) (level waiting) outer tokens (operand tokens))
    (hbound : tokens.length ≤ bound) :
    Agrees (extending first second inside) (.operand (level none) outer) (level none) outer
      tokens (chain first second operand tokens) := by
  have hfirst := hoperand none tokens hbound
  generalize hleft : operand tokens = left at hfirst
  cases hfirst with
  | failed shorter fails =>
      rw [chain, seq_of_failed hleft]
      exact .failed shorter fails
  | @parsed e rest tried shorter ends within reads =>
      rw [chain, seq_of_parsed hleft]
      have hmore := agrees_many hchain hoperand (Nat.le_trans shorter hbound) ends e
      exact hmore.behind reads shorter within
  | @stuck e rest place shorter continues beyond fails =>
      rw [chain, seq_of_parsed hleft, many_behind_of_inside hchain continues beyond]
      refine .stuck shorter ?_ beyond fails
      rw [begins_extending, continues, Bool.or_true]

end Chains

/-! ## The levels of the grammar -/

/-- An operand that has ended does not go on. -/
def never (_ : Token) : Bool := false

/-- Factors, behind a sum that may wait for them. -/
theorem isChain_product (waiting : Option (Expression × Operator)) (outer : List Level) :
    IsChain .multiply .divide never (fun product => ⟨waiting, product, 0⟩) outer where
  separate := fun _ _ => rfl
  joins := by
    intro product e rest _
    cases rest with
    | nil => cases outer <;> rfl
    | cons token rest => cases token <;> cases outer <;> rfl
  waits := by
    rintro op (rfl | rfl) e <;> rfl

/-- Terms. An operand of a sum has ended only where no factor follows. -/
theorem isChain_sum (outer : List Level) :
    IsChain .add .subtract (extending .multiply .divide never) (fun sum => ⟨sum, none, 0⟩)
      outer where
  separate := by
    rintro op (rfl | rfl) <;> rfl
  joins := by
    intro sum e rest hends
    cases rest with
    | nil => cases outer <;> rfl
    | cons token rest =>
        cases token with
        | star | slash => cases hends
        | closeParen => cases outer <;> rfl
        | _ => rfl
  waits := by
    rintro op (rfl | rfl) e <;> rfl

/-! ## Operands -/

section Operands

variable {inside : Parser Expression} {tokens : List Token} {level : Level}
  {outer : List Level} {bound : Nat}

/-- The signs before an operand are parsed as they are read. -/
theorem exists_many_sign (tokens : List Token) :
    ∃ signs rest tried, many sign tokens = .parsed signs rest tried ∧
      rest.length ≤ tokens.length ∧ begins (isOneOf .minus .plus) rest = false ∧
      Within rest tried ∧
      ∀ level outer, (Reading.operand level outer).run tokens =
        (Reading.operand { level with negations := level.negations + signs.count .minus }
          outer).run rest := by
  induction tokens with
  | nil => exact ⟨[], [], some [], many_of_failed rfl, Nat.le_refl _, rfl,
      within_some (Nat.le_refl _), fun _ _ => rfl⟩
  | cons token tokens ih =>
      obtain ⟨signs, rest, tried, hmany, hshorter, hends, hwithin, hreads⟩ := ih
      rcases either_just_cases .minus .plus Sign.minus Sign.plus (token :: tokens) with
        ⟨hfailed, hnone⟩ | ⟨_, value, _, tried', hsign, heq, hparsed, hwithin'⟩
      · exact ⟨[], token :: tokens, some (token :: tokens), many_of_failed hfailed,
          Nat.le_refl _, hnone, within_some (Nat.le_refl _), fun _ _ => rfl⟩
      · cases heq
        have hcons : many sign (token :: tokens) =
            ((many sign tokens).map (value :: ·)).behind tried' :=
          many_of_parsed hparsed (Nat.lt_succ_self _)
        have hle := Nat.le_succ_of_le hshorter
        rw [hmany] at hcons
        refine ⟨value :: signs, rest, _, hcons, hle, hends, (hwithin'.mono hle).merge hwithin, ?_⟩
        intro level outer
        rcases hsign with ⟨rfl, rfl⟩ | ⟨rfl, rfl⟩
        · have hstep : (Reading.operand level outer).step .minus =
              some (.operand { level with negations := level.negations + 1 } outer) := rfl
          rw [Reading.run_cons hstep, hreads, List.count_cons_self, Nat.add_right_comm]
          rfl
        · have hstep : (Reading.operand level outer).step .plus = some (.operand level outer) := rfl
          rw [Reading.run_cons hstep, hreads, List.count_cons_of_ne (by decide)]

/-- The tokens with which a sum goes on. -/
abbrev ofSum : Token → Bool :=
  extending .add .subtract (extending .multiply .divide never)

/-- A sum that is not closed where it ends is refused there, or where it would have gone on. -/
theorem exists_failed_of_unclosed {sum : Parser Expression} {close : Parser Unit}
    {reading : Reading} {start rest : List Token} {tried : Option (List Token)} {e : Expression}
    (hsum : sum start = .parsed e rest tried) (hclose : close rest = .failed rest)
    (hunclosed : begins ofSum rest = false →
      (Reading.finish e {} outer).run rest = .error rest.head?)
    (h : Agrees ofSum reading {} outer tokens (.parsed e rest tried)) :
    ∃ place, seq (fun e _ => e) sum close start = .failed place ∧
      place.length ≤ tokens.length ∧ reading.run tokens = .error place.head? := by
  rw [seq_of_parsed hsum, hclose]
  refine ⟨_, rfl, ?_⟩
  cases h with
  | parsed shorter ends within reads =>
      rw [within.elim]
      exact ⟨shorter, reads.trans (hunclosed ends)⟩
  | @stuck _ _ place shorter continues beyond fails =>
      rw [Option.elim, farther_eq_right beyond]
      exact ⟨by omega, fails⟩

/-- A sum in parentheses is parsed as it is read behind the open one. -/
theorem agrees_group {rest : List Token}
    (h : Agrees ofSum (.operand {} (level :: outer)) {} (level :: outer) rest (inside rest)) :
    Agrees never (.operand {} (level :: outer)) level outer rest
      (group inside (.openParen :: rest)) := by
  have hopen : seq (fun _ e => e) (just .openParen ()) inside (.openParen :: rest) =
      inside rest := by
    rw [seq_of_parsed rfl, Result.map_self, Result.behind_none]
  rw [group]
  generalize inside rest = result at h hopen
  cases result with
  | failed place =>
      rw [seq_of_failed hopen]
      cases h with
      | failed shorter fails => exact .failed shorter fails
  | parsed e tail tried =>
      by_cases hclose : tail.head? = some .closeParen
      · obtain ⟨tail, rfl⟩ := List.head?_eq_some_iff.1 hclose
        rw [seq_of_parsed hopen]
        cases h with
        | parsed shorter ends within reads =>
            have hle := Nat.le_of_succ_le shorter
            refine .parsed hle (by cases tail <;> rfl) ?_ reads
            exact (within.mono (Nat.le_succ _)).merge within_none
        | stuck shorter continues => cases continues
      · have hfailed : just .closeParen () tail = .failed tail := by
          cases tail with
          | nil => rfl
          | cons token tail =>
              have hne : token ≠ .closeParen := fun heq => hclose (congrArg some heq)
              simp [just, pick, hne]
        have hunclosed (hends : begins ofSum tail = false) :
            (Reading.finish e {} (level :: outer)).run tail = .error tail.head? := by
          cases tail with
          | nil => rfl
          | cons token tail =>
              cases token with
              | closeParen => exact absurd rfl hclose
              | number | name | openParen => rfl
              | plus | minus | star | slash => cases hends
        obtain ⟨place, hplace, shorter, fails⟩ :=
          exists_failed_of_unclosed hopen hfailed hunclosed h
        rw [hplace]
        exact .failed shorter fails

/-- Operands are parsed as they are read, unless a sign comes first. -/
theorem agrees_atom
    (hinside : ∀ tokens outer, tokens.length < bound →
      Agrees ofSum (.operand {} outer) {} outer tokens (inside tokens))
    (hbound : tokens.length ≤ bound) (hends : begins (isOneOf .minus .plus) tokens = false) :
    Agrees never (.operand level outer) level outer tokens (atom inside tokens) := by
  have hrefused (hatom : atom inside tokens = .failed tokens)
      (hrun : (Reading.operand level outer).run tokens = .error tokens.head?) :
      Agrees never (.operand level outer) level outer tokens (atom inside tokens) := by
    rw [hatom]
    exact .failed (Nat.le_refl _) hrun
  cases tokens with
  | nil => exact hrefused rfl rfl
  | cons token rest =>
      cases token with
      | number literal =>
          exact .parsed (Nat.le_succ _) (by cases rest <;> rfl) within_none rfl
      | name text =>
          exact .parsed (Nat.le_succ _) (by cases rest <;> rfl) (within_some (Nat.le_succ _)) rfl
      | openParen =>
          have hrest := hinside rest (level :: outer) hbound
          refine (agrees_group hrest).either ?_ rfl (Nat.lt_succ_self _)
          simp [either, number, name, pick, farther]
      | plus | minus => cases hends
      | star | slash | closeParen =>
          refine hrefused ?_ rfl
          simp [atom, either, number, name, group, seq, just, pick, farther]

/-- Signs and an operand are parsed as they are read. -/
theorem agrees_unary
    (hinside : ∀ tokens outer, tokens.length < bound →
      Agrees ofSum (.operand {} outer) {} outer tokens (inside tokens))
    (hbound : tokens.length ≤ bound) (sum product : Option (Expression × Operator)) :
    Agrees never (.operand ⟨sum, product, 0⟩ outer) ⟨sum, product, 0⟩ outer tokens
      (unary (atom inside) tokens) := by
  obtain ⟨signs, rest, tried, hmany, hshorter, hends, hwithin, hreads⟩ := exists_many_sign tokens
  let signed : Level := ⟨sum, product, 0 + signs.count .minus⟩
  have hatom : Agrees never (.operand signed outer) signed outer rest (atom inside rest) :=
    agrees_atom hinside (Nat.le_trans hshorter hbound) hends
  rw [unary, seq_of_parsed hmany]
  refine (hatom.map fun e => ?_).behind (hreads _ _) hshorter hwithin
  rw [foldr_apply]
  show Reading.finish e ⟨sum, product, 0 + signs.count .minus⟩ outer = _
  rw [Nat.zero_add]
  rfl

end Operands

/-! ## Whole texts -/

/-- A sum is parsed as it is read, however deep its parentheses may be. -/
theorem agrees_sum {depth : Nat} {tokens : List Token} (outer : List Level)
    (h : tokens.length < depth) :
    Agrees ofSum (.operand {} outer) {} outer tokens (sum depth tokens) := by
  induction depth generalizing tokens outer with
  | zero => cases h
  | succ depth ih =>
      -- what is in parentheses is shorter than the text around it
      have hinside : ∀ tokens outer, tokens.length < depth →
          Agrees ofSum (.operand {} outer) {} outer tokens (sum depth tokens) :=
        fun _ outer hlt => ih outer hlt
      have hunary (waiting : Option (Expression × Operator)) : ∀ product tokens,
          tokens.length ≤ depth →
          Agrees never (.operand ⟨waiting, product, 0⟩ outer) ⟨waiting, product, 0⟩ outer tokens
            (unary (atom (sum depth)) tokens) :=
        fun product tokens hbound => agrees_unary hinside hbound waiting product
      have hproduct : ∀ waiting tokens, tokens.length ≤ depth →
          Agrees (extending .multiply .divide never) (.operand ⟨waiting, none, 0⟩ outer)
            ⟨waiting, none, 0⟩ outer tokens
            (chain .multiply .divide (unary (atom (sum depth))) tokens) :=
        fun waiting tokens hbound =>
          agrees_chain (isChain_product waiting outer) (hunary waiting) hbound
      exact agrees_chain (isChain_sum outer) hproduct (Nat.le_of_lt_succ h)

end GrowthGrammar.Choice

namespace GrowthGrammar.Expression

/-- **Reading is ordered choice.** What the tokens of a text are read to is what a parser of ordered
choices and greedy repetitions makes of them: the same tree, or the same token out of place, which
is the farthest one that it has met. The depth is no restriction when it exceeds the length. -/
theorem ofTokens_eq_toExcept {tokens : List Token} {depth : Nat} (h : tokens.length < depth) :
    ofTokens tokens = (Choice.whole depth tokens).toExcept := by
  have hsum := Choice.agrees_sum [] h
  show (Reading.operand {} []).run tokens = _
  rw [Choice.whole]
  cases hresult : Choice.sum depth tokens with
  | failed place =>
      rw [hresult] at hsum
      rw [Choice.seq_of_failed hresult]
      cases hsum with
      | failed shorter fails => exact fails
  | parsed e rest tried =>
      rw [hresult] at hsum
      cases rest with
      | nil =>
          rw [Choice.seq_of_parsed hresult]
          cases hsum with
          | parsed shorter ends within reads => exact reads
          | stuck shorter continues => cases continues
      | cons token rest =>
          have hunclosed (hends : Choice.begins Choice.ofSum (token :: rest) = false) :
              (Reading.finish e {} []).run (token :: rest) = .error (some token) := by
            cases token with
            | number | name | openParen | closeParen => rfl
            | plus | minus | star | slash => cases hends
          have hfinished : Choice.finished (token :: rest) = .failed (token :: rest) := rfl
          obtain ⟨place, hplace, -, fails⟩ :=
            Choice.exists_failed_of_unclosed hresult hfinished hunclosed hsum
          rw [hplace]
          exact fails

-- the operator and the parenthesis are given back, and the end of the text stays the farthest place
example : Choice.sum 5 [.name "a", .minus, .name "b", .star, .openParen] =
    .parsed (.binary .subtract (.name "a") (.name "b")) [.star, .openParen] (some []) := by
  cbv

end GrowthGrammar.Expression

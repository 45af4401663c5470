import GrowthGrammar.Expression.Reading

/-!
# The grammar of expressions

    sum     = product (("+" | "-") product)*
    product = unary (("*" | "/") unary)*
    unary   = ("+" | "-")* atom
    atom    = number | name | "(" sum ")"

`Expression.Derives` states these rules for lists of tokens, each with the tree that it gives. Reading
tokens one by one accepts exactly the sums and yields their trees (`ofTokens_eq_ok_iff_derives`). In
one direction every part of a derivation takes a reading from where the part begins to where it
ends (`takes_of_derives`); in the other a reading knows at every token which parts it has behind it
(`Reading.Reads`), and at the end of the text these make up a sum.
-/

set_option autoImplicit false

namespace GrowthGrammar

/-! ## The rules -/

/-- What a rule of the grammar is about. -/
inductive Category where
  | sum
  | product
  | unary
  | atom

namespace Operator

/-- The token that an operator is written as. -/
def token : Operator → Token
  | add => .plus
  | subtract => .minus
  | multiply => .star
  | divide => .slash

/-- What an operator makes of its two sides. -/
def category : Operator → Category
  | add => .sum
  | subtract => .sum
  | multiply => .product
  | divide => .product

end Operator

namespace Expression

/-- A sign before an atom. -/
inductive Sign where
  | plus
  | minus
  deriving DecidableEq

namespace Sign

/-- The token that a sign is written as. -/
def token : Sign → Token
  | plus => .plus
  | minus => .minus

/-- The tree with a sign in front. A plus leaves no mark on it. -/
def apply : Sign → Expression → Expression
  | plus, e => e
  | minus, e => .negate e

end Sign

/-- An operator with the tokens and the tree of its right side. -/
structure Step where
  operator : Operator
  tokens : List Token
  right : Expression

namespace Step

/-- The tokens of a step, the operator first. -/
def text (step : Step) : List Token :=
  step.operator.token :: step.tokens

/-- The tree of what stands left of a step, joined with the step. -/
def joined (left : Expression) (step : Step) : Expression :=
  .binary step.operator left step.right

end Step

/-- The tokens that the grammar derives, with the tree of the derivation. Operators of one level
associate to the left. -/
inductive Derives : Category → List Token → Expression → Prop where
  | number (literal : Decimal.Literal) : Derives .atom [.number literal] (.number literal.toFloat)
  | name (text : String) : Derives .atom [.name text] (.name text)
  | group {tokens : List Token} {e : Expression} (inside : Derives .sum tokens e) :
      Derives .atom (.openParen :: (tokens ++ [.closeParen])) e
  | unary (signs : List Sign) {tokens : List Token} {e : Expression}
      (atom : Derives .atom tokens e) :
      Derives .unary (signs.map Sign.token ++ tokens) (signs.foldr Sign.apply e)
  | product {tokens : List Token} {first : Expression} {steps : List Step}
      (head : Derives .unary tokens first)
      (operators : ∀ step ∈ steps, step.operator.category = .product)
      (rights : ∀ step ∈ steps, Derives .unary step.tokens step.right) :
      Derives .product (tokens ++ steps.flatMap Step.text) (steps.foldl Step.joined first)
  | sum {tokens : List Token} {first : Expression} {steps : List Step}
      (head : Derives .product tokens first)
      (operators : ∀ step ∈ steps, step.operator.category = .sum)
      (rights : ∀ step ∈ steps, Derives .product step.tokens step.right) :
      Derives .sum (tokens ++ steps.flatMap Step.text) (steps.foldl Step.joined first)

/-- As many minus signs are put in front of a tree as there are among the signs. -/
theorem foldr_apply (signs : List Sign) (e : Expression) :
    signs.foldr Sign.apply e = Level.negated (signs.count .minus) e := by
  induction signs with
  | nil => rfl
  | cons sign signs ih =>
      rw [List.foldr_cons, ih]
      cases sign with
      | plus => rw [List.count_cons_of_ne (by decide)]; rfl
      | minus => rw [List.count_cons_self]; rfl

end Expression

/-! ## What is derived is read -/

namespace Reading

open Expression

theorem run_cons {reading next : Reading} {token : Token} (h : reading.step token = some next)
    (rest : List Token) : reading.run (token :: rest) = next.run rest := by
  rw [run, h]

/-- Tokens that, read where a part of the grammar may begin, leave the reading at the end of that
part with its tree. A product may begin behind a sum that waits, a sum only at the very beginning
of the text or of a group. -/
def Takes : Category → List Token → Expression → Prop
  | .atom, tokens, e => ∀ level outer rest,
      (operand level outer).run (tokens ++ rest) = (finish e level outer).run rest
  | .unary, tokens, e => ∀ level outer rest,
      (operand level outer).run (tokens ++ rest) =
        (ended (Level.negated level.negations e) { level with negations := 0 } outer).run rest
  | .product, tokens, e => ∀ sum outer rest, ∃ last product,
      (operand ⟨sum, none, 0⟩ outer).run (tokens ++ rest) =
        (ended last ⟨sum, product, 0⟩ outer).run rest ∧
      Level.join product last = e
  | .sum, tokens, e => ∀ outer rest, ∃ last sum product,
      (operand {} outer).run (tokens ++ rest) = (ended last ⟨sum, product, 0⟩ outer).run rest ∧
      Level.join sum (Level.join product last) = e

theorem takes_group {tokens : List Token} {e : Expression} (h : Takes .sum tokens e) :
    Takes .atom (.openParen :: (tokens ++ [.closeParen])) e := by
  intro level outer rest
  obtain ⟨last, sum, product, hrun, rfl⟩ := h (level :: outer) (.closeParen :: rest)
  have hopen : (operand level outer).step .openParen = some (operand {} (level :: outer)) := rfl
  rw [List.cons_append, List.append_assoc, run_cons hopen]
  exact hrun

theorem takes_unary (signs : List Sign) {tokens : List Token} {e : Expression}
    (h : Takes .atom tokens e) :
    Takes .unary (signs.map Sign.token ++ tokens) (signs.foldr Sign.apply e) := by
  induction signs with
  | nil => exact h
  | cons sign signs ih =>
      intro level outer rest
      cases sign with
      | plus => exact ih level outer rest
      | minus =>
          -- a minus sign waits in the level until the atom has been read
          have hminus : (operand level outer).step .minus =
              some (operand { level with negations := level.negations + 1 } outer) := rfl
          have hnegated : ∀ (n : Nat) (e : Expression),
              Level.negated (n + 1) e = Level.negated n (.negate e) := by
            intro n e
            induction n with
            | zero => rfl
            | succ n ih => rw [Level.negated, ih, Level.negated]
          show (operand level outer).run (.minus :: (signs.map Sign.token ++ tokens ++ rest)) = _
          rw [run_cons hminus, ih, hnegated]
          rfl

/-- Reading goes from one factor of a product to the next. -/
theorem exists_run_product {steps : List Step}
    (hoperators : ∀ step ∈ steps, step.operator.category = .product)
    (htakes : ∀ step ∈ steps, Takes .unary step.tokens step.right)
    (last : Expression) (sum product : Option (Expression × Operator)) (outer : List Level)
    (rest : List Token) :
    ∃ last' product', (ended last ⟨sum, product, 0⟩ outer).run (steps.flatMap Step.text ++ rest) =
        (ended last' ⟨sum, product', 0⟩ outer).run rest ∧
      Level.join product' last' = steps.foldl Step.joined (Level.join product last) := by
  induction steps generalizing last product with
  | nil => exact ⟨last, product, rfl, rfl⟩
  | cons step steps ih =>
      obtain ⟨operator, tokens, right⟩ := step
      have hstep : (ended last ⟨sum, product, 0⟩ outer).step operator.token =
          some (operand ⟨sum, some (Level.join product last, operator), 0⟩ outer) := by
        have hcategory := hoperators _ List.mem_cons_self
        cases operator with
        | add => cases hcategory
        | subtract => cases hcategory
        | multiply => rfl
        | divide => rfl
      obtain ⟨last', product', hrun, hjoin⟩ := ih
        (fun s hs => hoperators s (List.mem_cons_of_mem _ hs))
        (fun s hs => htakes s (List.mem_cons_of_mem _ hs)) right
        (some (Level.join product last, operator))
      refine ⟨last', product', ?_, hjoin⟩
      rw [List.flatMap_cons, Step.text, List.append_assoc, List.cons_append, run_cons hstep,
        htakes _ List.mem_cons_self]
      exact hrun

/-- Reading goes from one term of a sum to the next. -/
theorem exists_run_sum {steps : List Step}
    (hoperators : ∀ step ∈ steps, step.operator.category = .sum)
    (htakes : ∀ step ∈ steps, Takes .product step.tokens step.right)
    (last : Expression) (sum product : Option (Expression × Operator)) (outer : List Level)
    (rest : List Token) :
    ∃ last' sum' product',
      (ended last ⟨sum, product, 0⟩ outer).run (steps.flatMap Step.text ++ rest) =
        (ended last' ⟨sum', product', 0⟩ outer).run rest ∧
      Level.join sum' (Level.join product' last') =
        steps.foldl Step.joined (Level.join sum (Level.join product last)) := by
  induction steps generalizing last sum product with
  | nil => exact ⟨last, sum, product, rfl, rfl⟩
  | cons step steps ih =>
      obtain ⟨operator, tokens, right⟩ := step
      have hstep : (ended last ⟨sum, product, 0⟩ outer).step operator.token =
          some (operand ⟨some (Level.join sum (Level.join product last), operator), none, 0⟩
            outer) := by
        have hcategory := hoperators _ List.mem_cons_self
        cases operator with
        | add => rfl
        | subtract => rfl
        | multiply => cases hcategory
        | divide => cases hcategory
      -- the term behind the operator is a product of its own
      obtain ⟨factor, factors, hterm, rfl⟩ := htakes _ List.mem_cons_self
        (some (Level.join sum (Level.join product last), operator)) outer
        (steps.flatMap Step.text ++ rest)
      obtain ⟨last', sum', product', hrun, hjoin⟩ := ih
        (fun s hs => hoperators s (List.mem_cons_of_mem _ hs))
        (fun s hs => htakes s (List.mem_cons_of_mem _ hs)) factor
        (some (Level.join sum (Level.join product last), operator)) factors
      refine ⟨last', sum', product', ?_, hjoin⟩
      rw [List.flatMap_cons, Step.text, List.append_assoc, List.cons_append, run_cons hstep, hterm]
      exact hrun

/-- Every part that the grammar derives is read to its end. -/
theorem takes_of_derives {category : Category} {tokens : List Token} {e : Expression}
    (h : Derives category tokens e) : Takes category tokens e := by
  induction h with
  | number literal => exact fun level outer rest => rfl
  | name text => exact fun level outer rest => rfl
  | group _ ih => exact takes_group ih
  | unary signs _ ih => exact takes_unary signs ih
  | product _ operators _ ihhead ihrights =>
      intro sum outer rest
      rw [List.append_assoc, ihhead]
      exact exists_run_product operators ihrights _ sum none outer rest
  | sum _ operators _ ihhead ihrights =>
      intro outer rest
      obtain ⟨last, product, hrun, rfl⟩ := ihhead none outer (_ ++ rest)
      rw [List.append_assoc, hrun]
      exact exists_run_sum operators ihrights last none product outer rest

/-! ## What is read is derived -/

/-- A left side that waits for its right one, and the tokens that it has been read from, its operator
last. -/
inductive Waits (category : Category) : Option (Expression × Operator) → List Token → Prop where
  | nothing : Waits category none []
  | left {tokens : List Token} {left : Expression} {operator : Operator}
      (derives : Derives category tokens left) (made : operator.category = category) :
      Waits category (some (left, operator)) (tokens ++ [operator.token])

/-- The tokens of a level at which an operand must begin. -/
inductive LevelReads : Level → List Token → Prop where
  | intro {sum product : Option (Expression × Operator)} {before between : List Token}
      (signs : List Sign) (terms : Waits .sum sum before) (factors : Waits .product product between) :
      LevelReads ⟨sum, product, signs.count .minus⟩ (before ++ (between ++ signs.map Sign.token))

/-- The tokens up to the innermost open parenthesis. -/
inductive OuterReads : List Level → List Token → Prop where
  | top : OuterReads [] []
  | enclosed {level : Level} {outer : List Level} {before tokens : List Token}
      (enclosing : OuterReads outer before) (here : LevelReads level tokens) :
      OuterReads (level :: outer) (before ++ tokens ++ [.openParen])

/-- The tokens that a reading has behind it. -/
inductive Reads : Reading → List Token → Prop where
  | operand {level : Level} {outer : List Level} {before tokens : List Token}
      (enclosing : OuterReads outer before) (here : LevelReads level tokens) :
      Reads (.operand level outer) (before ++ tokens)
  | ended {e : Expression} {sum product : Option (Expression × Operator)} {outer : List Level}
      {before terms factors tokens : List Token} (enclosing : OuterReads outer before)
      (hsum : Waits .sum sum terms) (hproduct : Waits .product product factors)
      (derives : Derives .unary tokens e) :
      Reads (.ended e ⟨sum, product, 0⟩ outer) (before ++ (terms ++ (factors ++ tokens)))

theorem levelReads_start : LevelReads {} [] :=
  .intro [] .nothing .nothing

theorem reads_start : start.Reads [] :=
  .operand .top levelReads_start

/-- An operand completes the product that waits for it. -/
theorem derives_product_of_waits {product : Option (Expression × Operator)}
    {factors tokens : List Token} {e : Expression} (hproduct : Waits .product product factors)
    (h : Derives .unary tokens e) : Derives .product (factors ++ tokens) (Level.join product e) := by
  cases hproduct with
  | nothing =>
      have hone := @Derives.product tokens e [] h (by simp) (by simp)
      rwa [List.flatMap_nil, List.append_nil] at hone
  | @left before left operator derives made =>
      cases derives with
      | @product front first steps head operators rights =>
          let step : Step := ⟨operator, tokens, e⟩
          have hmore : Derives .product (front ++ (steps ++ [step]).flatMap Step.text)
              ((steps ++ [step]).foldl Step.joined first) := by
            refine .product head ?_ ?_
            · simpa [or_imp, forall_and, step, made] using operators
            · simpa [or_imp, forall_and, step, h] using rights
          simpa [step, Step.text, Step.joined, Level.join] using hmore

/-- A product completes the sum that waits for it. -/
theorem derives_sum_of_waits {sum : Option (Expression × Operator)} {terms tokens : List Token}
    {e : Expression} (hsum : Waits .sum sum terms) (h : Derives .product tokens e) :
    Derives .sum (terms ++ tokens) (Level.join sum e) := by
  cases hsum with
  | nothing =>
      have hone := @Derives.sum tokens e [] h (by simp) (by simp)
      rwa [List.flatMap_nil, List.append_nil] at hone
  | @left before left operator derives made =>
      cases derives with
      | @sum front first steps head operators rights =>
          let step : Step := ⟨operator, tokens, e⟩
          have hmore : Derives .sum (front ++ (steps ++ [step]).flatMap Step.text)
              ((steps ++ [step]).foldl Step.joined first) := by
            refine .sum head ?_ ?_
            · simpa [or_imp, forall_and, step, made] using operators
            · simpa [or_imp, forall_and, step, h] using rights
          simpa [step, Step.text, Step.joined, Level.join] using hmore

/-- An atom ends an operand, and the signs before it are part of that. -/
theorem reads_finish {level : Level} {outer : List Level} {before tokens atom : List Token}
    {e : Expression} (houter : OuterReads outer before) (hlevel : LevelReads level tokens)
    (h : Derives .atom atom e) : (finish e level outer).Reads (before ++ tokens ++ atom) := by
  cases hlevel with
  | @intro sum product terms factors signs hsum hproduct =>
      have hunary := Derives.unary signs h
      rw [foldr_apply] at hunary
      have hended := Reads.ended houter hsum hproduct hunary
      simpa [finish] using hended

/-- A sum waits for the term behind its operator. -/
theorem reads_term {outer : List Level} {before tokens : List Token} {e : Expression}
    {operator : Operator} (houter : OuterReads outer before) (h : Derives .sum tokens e)
    (made : operator.category = .sum) :
    (Reading.operand ⟨some (e, operator), none, 0⟩ outer).Reads
      (before ++ tokens ++ [operator.token]) := by
  have hread := Reads.operand houter (.intro [] (.left h made) .nothing)
  simpa using hread

/-- A product waits for the factor behind its operator. -/
theorem reads_factor {sum : Option (Expression × Operator)} {outer : List Level}
    {before terms tokens : List Token} {e : Expression} {operator : Operator}
    (houter : OuterReads outer before) (hsum : Waits .sum sum terms) (h : Derives .product tokens e)
    (made : operator.category = .product) :
    (Reading.operand ⟨sum, some (e, operator), 0⟩ outer).Reads
      (before ++ (terms ++ tokens) ++ [operator.token]) := by
  have hread := Reads.operand houter (.intro [] hsum (.left h made))
  simpa using hread

/-- **One more token keeps what a reading knows of the tokens behind it.** -/
theorem Reads.step {reading next : Reading} {tokens : List Token} {token : Token}
    (h : reading.Reads tokens) (hstep : reading.step token = some next) :
    next.Reads (tokens ++ [token]) := by
  cases h with
  | @operand level outer before tokens houter hlevel =>
      cases token with
      | number literal =>
          cases hstep
          exact reads_finish houter hlevel (.number literal)
      | name text =>
          cases hstep
          exact reads_finish houter hlevel (.name text)
      | plus =>
          cases hstep
          obtain ⟨signs, hsum, hproduct⟩ := hlevel
          have hmore := LevelReads.intro (signs ++ [.plus]) hsum hproduct
          simpa [Sign.token] using Reads.operand houter hmore
      | minus =>
          cases hstep
          obtain ⟨signs, hsum, hproduct⟩ := hlevel
          have hmore := LevelReads.intro (signs ++ [.minus]) hsum hproduct
          simpa [Sign.token] using Reads.operand houter hmore
      | openParen =>
          cases hstep
          simpa using Reads.operand (.enclosed houter hlevel) levelReads_start
      | star => cases hstep
      | slash => cases hstep
      | closeParen => cases hstep
  | @ended e sum product outer before terms factors tokens houter hsum hproduct hunary =>
      have hproducts := derives_product_of_waits hproduct hunary
      have hsums := derives_sum_of_waits hsum hproducts
      cases token with
      | plus =>
          cases hstep
          exact reads_term houter hsums rfl
      | minus =>
          cases hstep
          exact reads_term houter hsums rfl
      | star =>
          cases hstep
          exact reads_factor houter hsum hproducts rfl
      | slash =>
          cases hstep
          exact reads_factor houter hsum hproducts rfl
      | closeParen =>
          cases houter with
          | top => cases hstep
          | enclosed houter hlevel =>
              cases hstep
              have hread := reads_finish houter hlevel (.group hsums)
              simpa [Level.closeSum, Level.closeProduct] using hread
      | number literal => cases hstep
      | name text => cases hstep
      | openParen => cases hstep

/-- A reading that is complete has a sum behind it. -/
theorem Reads.derives {reading : Reading} {tokens : List Token} {e : Expression}
    (h : reading.Reads tokens) (hcomplete : reading.complete? = some e) :
    Derives .sum tokens e := by
  cases h with
  | operand => cases hcomplete
  | @ended last sum product outer before terms factors tokens houter hsum hproduct hunary =>
      cases houter with
      | top =>
          cases hcomplete
          have hproducts := derives_product_of_waits hproduct hunary
          have hsums := derives_sum_of_waits hsum hproducts
          exact hsums
      | enclosed => cases hcomplete

theorem derives_of_run {reading : Reading} {before tokens : List Token} {e : Expression}
    (h : reading.Reads before) (hrun : reading.run tokens = .ok e) :
    Derives .sum (before ++ tokens) e := by
  induction tokens generalizing reading before with
  | nil =>
      rw [run] at hrun
      split at hrun
      · next hcomplete =>
        cases hrun
        rw [List.append_nil]
        exact h.derives hcomplete
      · cases hrun
  | cons token tokens ih =>
      rw [run] at hrun
      split at hrun
      · next hstep =>
        have hrest := ih (h.step hstep) hrun
        rwa [List.append_assoc, List.singleton_append] at hrest
      · cases hrun

end Reading

/-! ## The language of expressions -/

namespace Expression

/-- A derivation is read to its tree. -/
theorem ofTokens_of_derives {tokens : List Token} {e : Expression} (h : Derives .sum tokens e) :
    ofTokens tokens = .ok e := by
  obtain ⟨last, sum, product, hrun, rfl⟩ := Reading.takes_of_derives h [] []
  rw [List.append_nil] at hrun
  exact hrun

/-- **Reading accepts exactly the grammar.** A list of tokens is read to a tree exactly when it is
a sum of the grammar with that tree, and it is one with at most one tree. -/
theorem ofTokens_eq_ok_iff_derives (tokens : List Token) :
    (∀ e, ofTokens tokens = .ok e ↔ Derives .sum tokens e) ∧
    ∀ e e', Derives .sum tokens e → Derives .sum tokens e' → e = e' := by
  refine ⟨fun e => ⟨?_, ofTokens_of_derives⟩, ?_⟩
  · intro h
    exact Reading.derives_of_run Reading.reads_start h
  · intro e e' h h'
    have hread := ofTokens_of_derives h
    rw [ofTokens_of_derives h'] at hread
    exact (Except.ok.inj hread).symm

-- a minus sign binds closer than a product, and subtraction associates to the left
example : ofTokens [.minus, .name "a", .minus, .name "b", .star, .minus, .plus, .name "c", .minus,
      .name "d"] =
    .ok (.binary .subtract
      (.binary .subtract (.negate (.name "a"))
        (.binary .multiply (.name "b") (.negate (.name "c"))))
      (.name "d")) :=
  rfl

end Expression

end GrowthGrammar

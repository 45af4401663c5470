import GrowthGrammar.Context

/-!
# Brackets

Depth and matching of the brackets in a row of symbols. `Side.level` counts open brackets along a
row and gives up at a bracket that closes nothing. A bracket that opens a branch and the one that
closes it are a pair when the row between them is balanced (`Side.IsPair`); `Side.Closes` is the
closing half alone, for a branch that was opened before the row. All of it is stated for either
side, because the walk away from a letter reads brackets the other way round on the left, and
reversing a row exchanges the two readings (`isPair_reverse`).
-/

set_option autoImplicit false

namespace GrowthGrammar.Side

/-! ## Depth -/

theorem opening_ne_closing (side : Side) : side.opening ≠ side.closing := by
  cases side <;> decide

/-- The number of open brackets behind a row that is entered with `depth` of them. None if the row
closes more than are open. -/
def level (side : Side) : Nat → List String → Option Nat
  | depth, [] => some depth
  | depth, symbol :: symbols =>
    if symbol = side.opening then side.level (depth + 1) symbols
    else if symbol = side.closing then
      match depth with
      | 0 => none
      | depth + 1 => side.level depth symbols
    else side.level depth symbols

/-- A row that opens and closes the same branches. -/
def IsBalanced (side : Side) (symbols : List String) : Prop :=
  side.level 0 symbols = some 0

instance (side : Side) (symbols : List String) : Decidable (side.IsBalanced symbols) :=
  inferInstanceAs (Decidable (_ = _))

section Level

variable {side : Side} {depth : Nat} {symbol : String} {symbols : List String}

@[simp] theorem level_nil : side.level depth [] = some depth := by
  rw [level.eq_def]

@[simp] theorem level_opening :
    side.level depth (side.opening :: symbols) = side.level (depth + 1) symbols := by
  rw [level.eq_def]
  simp only [if_pos]

@[simp] theorem level_closing_zero : side.level 0 (side.closing :: symbols) = none := by
  rw [level.eq_def]
  simp only [if_neg side.opening_ne_closing.symm, if_pos]

@[simp] theorem level_closing_succ :
    side.level (depth + 1) (side.closing :: symbols) = side.level depth symbols := by
  rw [level.eq_def]
  simp only [if_neg side.opening_ne_closing.symm, if_pos]

theorem level_plain (hopening : symbol ≠ side.opening) (hclosing : symbol ≠ side.closing) :
    side.level depth (symbol :: symbols) = side.level depth symbols := by
  rw [level.eq_def]
  simp only [if_neg hopening, if_neg hclosing]

/-- A symbol opens a branch, closes one, or does neither. -/
theorem bracket_cases (side : Side) (symbol : String) :
    symbol = side.opening ∨ symbol = side.closing ∨
      (symbol ≠ side.opening ∧ symbol ≠ side.closing) := by
  by_cases hopening : symbol = side.opening
  · exact .inl hopening
  · by_cases hclosing : symbol = side.closing
    · exact .inr (.inl hclosing)
    · exact .inr (.inr ⟨hopening, hclosing⟩)

theorem level_append (front rest : List String) :
    side.level depth (front ++ rest) =
      (side.level depth front).bind fun depth => side.level depth rest := by
  induction front generalizing depth with
  | nil => simp
  | cons symbol front ih =>
      rw [List.cons_append]
      rcases side.bracket_cases symbol with rfl | rfl | ⟨hopening, hclosing⟩
      · rw [level_opening, level_opening, ih]
      · cases depth with
        -- a bracket that closes nothing ends both readings
        | zero => simp
        | succ depth => rw [level_closing_succ, level_closing_succ, ih]
      · rw [level_plain hopening hclosing, level_plain hopening hclosing, ih]

/-- One more bracket open before a row is one more open behind it. -/
theorem level_succ {after : Nat} (h : side.level depth symbols = some after) :
    side.level (depth + 1) symbols = some (after + 1) := by
  induction symbols generalizing depth with
  | nil =>
      rw [level_nil] at h ⊢
      cases h
      rfl
  | cons symbol symbols ih =>
      rcases side.bracket_cases symbol with rfl | rfl | ⟨hopening, hclosing⟩
      · rw [level_opening] at h ⊢
        exact ih h
      · cases depth with
        | zero =>
            rw [level_closing_zero] at h
            cases h
        | succ depth =>
            rw [level_closing_succ] at h ⊢
            exact ih h
      · rw [level_plain hopening hclosing] at h ⊢
        exact ih h

end Level

/-! ## Reading a row backwards -/

/-- The side from which the same brackets are read the other way round. -/
def flip : Side → Side
  | before => after
  | after => before

@[simp] theorem flip_opening (side : Side) : side.flip.opening = side.closing := by
  cases side <;> rfl

@[simp] theorem flip_closing (side : Side) : side.flip.closing = side.opening := by
  cases side <;> rfl

/-- One symbol read backwards undoes what it does forwards. -/
theorem level_singleton_flip {side : Side} {symbol : String} {depth after : Nat}
    (h : side.level depth [symbol] = some after) : side.flip.level after [symbol] = some depth := by
  rcases side.bracket_cases symbol with rfl | rfl | ⟨hopening, hclosing⟩
  · rw [level_opening, level_nil] at h
    cases h
    rw [← flip_closing, level_closing_succ, level_nil]
  · cases depth with
    | zero =>
        rw [level_closing_zero] at h
        cases h
    | succ depth =>
        rw [level_closing_succ, level_nil] at h
        cases h
        rw [← flip_opening, level_opening, level_nil]
  · rw [level_plain hopening hclosing, level_nil] at h
    cases h
    rw [level_plain (by rwa [flip_opening]) (by rwa [flip_closing]), level_nil]

/-- So does a row, taken from its end. -/
theorem level_reverse {side : Side} {symbols : List String} {depth after : Nat}
    (h : side.level depth symbols = some after) :
    side.flip.level after symbols.reverse = some depth := by
  induction symbols generalizing depth with
  | nil =>
      rw [level_nil] at h
      cases h
      rw [List.reverse_nil, level_nil]
  | cons symbol symbols ih =>
      -- the first symbol forwards is the last one backwards
      rw [← List.singleton_append, level_append] at h
      obtain ⟨between, hsymbol, hsymbols⟩ := Option.bind_eq_some_iff.1 h
      rw [List.reverse_cons, level_append, ih hsymbols]
      exact level_singleton_flip hsymbol

/-! ## Closing brackets -/

/-- The bracket at `index` closes the branch that has `depth` open branches inside it when the row
begins. -/
def Closes (side : Side) (depth : Nat) (symbols : List String) (index : Nat) : Prop :=
  ∃ inside rest, symbols = inside ++ side.closing :: rest ∧
    side.level depth inside = some 0 ∧ inside.length = index

section Closes

variable {side : Side} {depth index : Nat} {symbol : String} {symbols : List String}

theorem closes_zero : side.Closes depth (symbol :: symbols) 0 ↔
    symbol = side.closing ∧ depth = 0 := by
  constructor
  · rintro ⟨inside, rest, hsymbols, hlevel, hlength⟩
    obtain rfl := List.length_eq_zero_iff.1 hlength
    rw [level_nil] at hlevel
    exact ⟨(List.cons.inj hsymbols).1, Option.some.inj hlevel⟩
  · rintro ⟨rfl, rfl⟩
    exact ⟨[], symbols, rfl, level_nil, rfl⟩

/-- Behind its first symbol a row closes what that symbol leaves open. -/
theorem closes_succ_of_level {next : Nat}
    (h : ∀ inside, side.level depth (symbol :: inside) = side.level next inside) :
    side.Closes depth (symbol :: symbols) (index + 1) ↔ side.Closes next symbols index := by
  constructor
  · rintro ⟨inside, rest, hsymbols, hlevel, hlength⟩
    cases inside with
    | nil => cases hlength
    | cons first inside =>
        obtain ⟨rfl, rfl⟩ := List.cons.inj hsymbols
        rw [h] at hlevel
        exact ⟨inside, rest, rfl, hlevel, Nat.succ.inj hlength⟩
  · rintro ⟨inside, rest, rfl, hlevel, rfl⟩
    exact ⟨symbol :: inside, rest, rfl, (h inside).trans hlevel, rfl⟩

theorem closes_opening : side.Closes depth (side.opening :: symbols) (index + 1) ↔
    side.Closes (depth + 1) symbols index :=
  closes_succ_of_level fun _ => level_opening

theorem closes_closing : side.Closes (depth + 1) (side.closing :: symbols) (index + 1) ↔
    side.Closes depth symbols index :=
  closes_succ_of_level fun _ => level_closing_succ

theorem closes_plain (hopening : symbol ≠ side.opening) (hclosing : symbol ≠ side.closing) :
    side.Closes depth (symbol :: symbols) (index + 1) ↔ side.Closes depth symbols index :=
  closes_succ_of_level fun _ => level_plain hopening hclosing

/-- A bracket that closes the innermost branch at once is the only one that closes it. -/
theorem not_closes_closing : ¬side.Closes 0 (side.closing :: symbols) (index + 1) := by
  rintro ⟨inside, rest, hsymbols, hlevel, hlength⟩
  cases inside with
  | nil => cases hlength
  | cons first inside =>
      obtain ⟨rfl, -⟩ := List.cons.inj hsymbols
      rw [level_closing_zero] at hlevel
      cases hlevel

/-- A row that closes a branch has the bracket that does. -/
theorem exists_closes {outer after : Nat}
    (h : side.level (depth + 1 + outer) symbols = some after) (hafter : after ≤ outer) :
    ∃ index, side.Closes depth symbols index := by
  induction symbols generalizing depth with
  | nil =>
      rw [level_nil] at h
      cases h
      omega
  | cons symbol symbols ih =>
      rcases side.bracket_cases symbol with rfl | rfl | ⟨hopening, hclosing⟩
      · rw [level_opening, show depth + 1 + outer + 1 = depth + 1 + 1 + outer by omega] at h
        obtain ⟨index, hindex⟩ := ih h
        exact ⟨index + 1, closes_opening.2 hindex⟩
      · cases depth with
        -- nothing is open inside the branch any more, so this is its end
        | zero => exact ⟨0, closes_zero.2 ⟨rfl, rfl⟩⟩
        | succ depth =>
            rw [show depth + 1 + 1 + outer = depth + 1 + outer + 1 by omega,
              level_closing_succ] at h
            obtain ⟨index, hindex⟩ := ih h
            exact ⟨index + 1, closes_closing.2 hindex⟩
      · rw [level_plain hopening hclosing] at h
        obtain ⟨index, hindex⟩ := ih h
        exact ⟨index + 1, (closes_plain hopening hclosing).2 hindex⟩

end Closes

/-! ## Pairs -/

/-- The brackets at `first` and `last` open and close one branch: the row between them is
balanced. -/
def IsPair (side : Side) (symbols : List String) (first last : Nat) : Prop :=
  ∃ front inside rest,
    symbols = front ++ side.opening :: (inside ++ side.closing :: rest) ∧
    side.IsBalanced inside ∧ front.length = first ∧ first + 1 + inside.length = last

section IsPair

variable {side : Side} {first last : Nat} {symbol : String} {symbols : List String}

theorem IsPair.lt (h : side.IsPair symbols first last) : first < last := by
  obtain ⟨_, inside, _, -, -, -, rfl⟩ := h
  omega

theorem IsPair.last_lt (h : side.IsPair symbols first last) : last < symbols.length := by
  obtain ⟨front, inside, rest, rfl, -, rfl, rfl⟩ := h
  simp only [List.length_append, List.length_cons]
  omega

theorem isPair_zero : side.IsPair (symbol :: symbols) 0 (last + 1) ↔
    symbol = side.opening ∧ side.Closes 0 symbols last := by
  constructor
  · rintro ⟨front, inside, rest, hsymbols, hinside, hfront, hlast⟩
    obtain rfl := List.length_eq_zero_iff.1 hfront
    obtain ⟨rfl, rfl⟩ := List.cons.inj hsymbols
    exact ⟨rfl, inside, rest, rfl, hinside, by omega⟩
  · rintro ⟨rfl, inside, rest, rfl, hinside, rfl⟩
    exact ⟨[], inside, rest, rfl, hinside, rfl, by omega⟩

theorem isPair_succ : side.IsPair (symbol :: symbols) (first + 1) (last + 1) ↔
    side.IsPair symbols first last := by
  constructor
  · rintro ⟨front, inside, rest, hsymbols, hinside, hfront, hlast⟩
    cases front with
    | nil => cases hfront
    | cons head front =>
        obtain ⟨rfl, rfl⟩ := List.cons.inj hsymbols
        exact ⟨front, inside, rest, rfl, hinside, Nat.succ.inj hfront, by omega⟩
  · rintro ⟨front, inside, rest, rfl, hinside, rfl, rfl⟩
    exact ⟨symbol :: front, inside, rest, rfl, hinside, rfl, by omega⟩

theorem isPair_append_left (front : List String) :
    side.IsPair (front ++ symbols) (front.length + first) (front.length + last) ↔
      side.IsPair symbols first last := by
  induction front with
  | nil => simp
  | cons symbol front ih =>
      rw [List.cons_append, List.length_cons,
        show front.length + 1 + first = front.length + first + 1 by omega,
        show front.length + 1 + last = front.length + last + 1 by omega, isPair_succ, ih]

/-- What stands behind a branch does not matter to it. -/
theorem isPair_append_right (rest : List String) (hlast : last < symbols.length) :
    side.IsPair (symbols ++ rest) first last ↔ side.IsPair symbols first last := by
  constructor
  · rintro ⟨front, inside, behind, hsymbols, hinside, rfl, rfl⟩
    -- the branch ends before `rest` begins, so all of it stands in `symbols`
    have hbranch : (front ++ side.opening :: (inside ++ [side.closing])) <+: symbols ++ rest :=
      ⟨behind, by simp [hsymbols]⟩
    have hlength : (front ++ side.opening :: (inside ++ [side.closing])).length ≤
        symbols.length := by
      simp only [List.length_append, List.length_cons, List.length_nil]
      omega
    obtain ⟨tail, htail⟩ := List.prefix_of_prefix_length_le hbranch ⟨rest, rfl⟩ hlength
    exact ⟨front, inside, tail, by simp [← htail], hinside, rfl, rfl⟩
  · rintro ⟨front, inside, behind, rfl, hinside, rfl, rfl⟩
    exact ⟨front, inside, behind ++ rest, by simp, hinside, rfl, rfl⟩

/-- Read backwards, a branch is opened by the bracket that closes it. -/
theorem IsPair.reverse (h : side.IsPair symbols first last) :
    side.flip.IsPair symbols.reverse (symbols.length - 1 - last) (symbols.length - 1 - first) := by
  obtain ⟨front, inside, rest, rfl, hinside, rfl, rfl⟩ := h
  -- the three parts around the two brackets change places
  refine ⟨rest.reverse, inside.reverse, front.reverse, by simp, level_reverse hinside, ?_, ?_⟩
  all_goals
    simp only [List.length_reverse, List.length_append, List.length_cons]
    omega

@[simp] theorem flip_flip (side : Side) : side.flip.flip = side := by
  cases side <;> rfl

theorem isPair_reverse (hfirst : first < symbols.length) (hlast : last < symbols.length) :
    side.flip.IsPair symbols.reverse (symbols.length - 1 - last) (symbols.length - 1 - first) ↔
      side.IsPair symbols first last := by
  constructor
  · intro h
    have hback := h.reverse
    rw [flip_flip, List.reverse_reverse, List.length_reverse] at hback
    rwa [show symbols.length - 1 - (symbols.length - 1 - first) = first by omega,
      show symbols.length - 1 - (symbols.length - 1 - last) = last by omega] at hback
  · exact IsPair.reverse

end IsPair

end GrowthGrammar.Side

import GrowthGrammar.Decimal.Literal
import Mathlib.Data.List.Basic
import Mathlib.Data.List.TakeWhile

/-!
# Scanning literals

What is scanned at the start of a text is a literal (`Literal.isWellFormed_of_scan`) and the longest
one there: every literal at the start is the beginning of the scanned one
(`Literal.exists_scan_append`). It is the scanned one itself if what follows could not go on with it
(`Literal.scan_text_append`).
-/

set_option autoImplicit false

namespace GrowthGrammar.Decimal

/-! ## Literals as they are written -/

/-- An exponent part that a literal can have. -/
structure Exponent.IsWritten (e : Exponent) : Prop where
  mark : e.mark = 'e' ∨ e.mark = 'E'
  sign : e.sign = none ∨ e.sign = some '+' ∨ e.sign = some '-'
  digits_ne_nil : e.digits ≠ []
  digits : ∀ c ∈ e.digits, c.isDigit = true

/-- A literal with a digit before its point or behind it. -/
structure Literal.IsWellFormed (l : Literal) : Prop where
  digit : l.whole ≠ [] ∨ l.fraction.getD [] ≠ []
  whole : ∀ c ∈ l.whole, c.isDigit = true
  fraction : ∀ c ∈ l.fraction.getD [], c.isDigit = true
  exponent : ∀ e, l.exponent = some e → e.IsWritten

/-- A literal with digits at its start. -/
structure Literal.IsWritten (l : Literal) : Prop where
  whole_ne_nil : l.whole ≠ []
  whole : ∀ c ∈ l.whole, c.isDigit = true
  fraction : ∀ c ∈ l.fraction.getD [], c.isDigit = true
  exponent : ∀ e, l.exponent = some e → e.IsWritten

theorem Literal.IsWritten.isWellFormed {l : Literal} (h : l.IsWritten) : l.IsWellFormed :=
  ⟨.inl h.whole_ne_nil, h.whole, h.fraction, h.exponent⟩

/-- A literal starts with a digit. -/
theorem Literal.IsWritten.exists_digit {l : Literal} (h : l.IsWritten) :
    ∃ d behind, l.text = d :: behind ∧ d.isDigit = true := by
  obtain ⟨d, digits, hwhole⟩ := List.exists_cons_of_ne_nil h.whole_ne_nil
  have hd : d.isDigit = true := h.whole d (by rw [hwhole]; exact List.mem_cons_self)
  rw [Literal.text, hwhole]
  exact ⟨d, _, rfl, hd⟩

/-- Nothing at the start of a text could go on with a literal before it. -/
def Ends (rest : List Char) : Prop :=
  ∀ c, rest.head? = some c → c.isDigit = false ∧ c ≠ '.' ∧ c ≠ 'e' ∧ c ≠ 'E'

theorem ends_nil : Ends [] := by
  intro c hc
  cases hc

theorem ends_cons {c : Char} {rest : List Char} :
    Ends (c :: rest) ↔ c.isDigit = false ∧ c ≠ '.' ∧ c ≠ 'e' ∧ c ≠ 'E' := by
  simp [Ends]

variable {whole digits rest : List Char}

/-! ## Digits -/

theorem spanDigits_append_of_digits (h : ∀ c ∈ digits, c.isDigit = true) (rest : List Char) :
    spanDigits (digits ++ rest) = (digits ++ (spanDigits rest).1, (spanDigits rest).2) := by
  rw [spanDigits, List.takeWhile_append_of_pos h, List.dropWhile_append_of_pos h, spanDigits]

theorem spanDigits_of_head? (hrest : ∀ c, rest.head? = some c → c.isDigit = false) :
    spanDigits rest = ([], rest) := by
  rw [spanDigits]
  cases rest with
  | nil => rfl
  | cons c rest =>
      have hc : ¬c.isDigit = true := by
        rw [hrest c rfl]
        decide
      rw [List.takeWhile_cons_of_neg hc, List.dropWhile_cons_of_neg hc]

theorem spanDigits_of_head (h : ∀ c ∈ digits, c.isDigit = true)
    (hrest : ∀ c, rest.head? = some c → c.isDigit = false) :
    spanDigits (digits ++ rest) = (digits, rest) := by
  rw [spanDigits_append_of_digits h, spanDigits_of_head? hrest, List.append_nil]

theorem isDigit_of_mem_spanDigits {cs : List Char} {c : Char} (h : c ∈ (spanDigits cs).1) :
    c.isDigit = true :=
  List.mem_takeWhile_imp h

/-! ## Exponents -/

namespace Exponent

/-- The characters of an exponent part that may be missing. -/
def optionText : Option Exponent → List Char
  | some e => e.text
  | none => []

/-- An exponent part goes on with the digits that follow it. -/
theorem scan_text_append {e : Exponent} (h : e.IsWritten) (rest : List Char) :
    scan (e.text ++ rest) =
      some ({ e with digits := e.digits ++ (spanDigits rest).1 }, (spanDigits rest).2) := by
  obtain ⟨mark, sign, digits⟩ := e
  obtain ⟨hmark, hsign, hne, hdigits⟩ := h
  dsimp only at hmark hsign hne hdigits
  have hscan : scanDigits mark sign (digits ++ rest) =
      some (⟨mark, sign, digits ++ (spanDigits rest).1⟩, (spanDigits rest).2) := by
    simp [scanDigits, spanDigits_append_of_digits hdigits, hne]
  simp only [text, List.cons_append, scan, if_pos hmark]
  rcases hsign with rfl | rfl | rfl
  · -- the first digit is no sign
    obtain ⟨c, digits, rfl⟩ := List.exists_cons_of_ne_nil hne
    have hc : c.isDigit = true := hdigits c List.mem_cons_self
    rw [← hscan]
    simp only [Option.toList_none, List.nil_append, List.cons_append]
    split
    · next heq =>
      obtain rfl := (List.cons.inj heq).1
      cases hc
    · next heq =>
      obtain rfl := (List.cons.inj heq).1
      cases hc
    · rfl
  · exact hscan
  · exact hscan

theorem scan_of_ends (hrest : Ends rest) : scan rest = none := by
  cases rest with
  | nil => rfl
  | cons c rest =>
      obtain ⟨-, -, hsmall, hlarge⟩ := ends_cons.1 hrest
      simp only [scan]
      rw [if_neg (not_or.2 ⟨hsmall, hlarge⟩)]

theorem isWritten_of_scanDigits {mark : Char} {sign : Option Char} {cs : List Char} {e : Exponent}
    (hmark : mark = 'e' ∨ mark = 'E')
    (hsign : sign = none ∨ sign = some '+' ∨ sign = some '-')
    (h : scanDigits mark sign cs = some (e, rest)) : e.IsWritten := by
  simp only [scanDigits] at h
  split at h
  · cases h
  · next hne =>
    cases h
    exact ⟨hmark, hsign, mt List.isEmpty_iff.2 hne, fun c hc => isDigit_of_mem_spanDigits hc⟩

theorem isWritten_of_scan {cs : List Char} {e : Exponent} (h : scan cs = some (e, rest)) :
    e.IsWritten := by
  cases cs with
  | nil => cases h
  | cons mark cs =>
      simp only [scan] at h
      split at h
      · next hmark =>
        split at h
        · exact isWritten_of_scanDigits hmark (.inr (.inl rfl)) h
        · exact isWritten_of_scanDigits hmark (.inr (.inr rfl)) h
        · exact isWritten_of_scanDigits hmark (.inl rfl) h
      · cases h

/-- An exponent part starts with neither a digit nor a point. -/
theorem head?_text_append {e : Exponent} (h : e.IsWritten) (rest : List Char) (c : Char)
    (hc : (e.text ++ rest).head? = some c) : c.isDigit = false ∧ c ≠ '.' := by
  obtain rfl : e.mark = c := Option.some.inj hc
  rcases h.mark with hmark | hmark
  · rw [hmark]
    decide
  · rw [hmark]
    decide

/-- If it is missing, neither does what follows. -/
theorem head?_optionText_append {exponent : Option Exponent}
    (h : ∀ e, exponent = some e → e.IsWritten) (hrest : Ends rest) (c : Char)
    (hc : (optionText exponent ++ rest).head? = some c) :
    c.isDigit = false ∧ c ≠ '.' := by
  cases exponent with
  | none => exact ⟨(hrest c hc).1, (hrest c hc).2.1⟩
  | some e => exact head?_text_append (h e rfl) rest c hc

end Exponent

/-! ## Literals -/

namespace Literal

variable {fraction : Option (List Char)} {cs : List Char}

/-- The parts of a literal without an exponent. -/
theorem text_prefix_withExponent (whole : List Char) (fraction : Option (List Char))
    (cs : List Char) : text ⟨whole, fraction, none⟩ <+: (withExponent whole fraction cs).1.text := by
  unfold withExponent
  split
  · next e rest _ =>
    refine ⟨e.text, ?_⟩
    simp [text]
  · exact List.prefix_rfl

/-- A literal goes on with the digits that follow its exponent. -/
theorem withExponent_text_append {e : Exponent} (h : e.IsWritten) (whole : List Char)
    (fraction : Option (List Char)) (rest : List Char) :
    withExponent whole fraction (e.text ++ rest) =
      (⟨whole, fraction, some { e with digits := e.digits ++ (spanDigits rest).1 }⟩,
        (spanDigits rest).2) := by
  unfold withExponent
  rw [Exponent.scan_text_append h]

/-- An exponent part is scanned with the literal that it belongs to. -/
theorem withExponent_append {exponent : Option Exponent}
    (h : ∀ e, exponent = some e → e.IsWritten) (hrest : Ends rest) (whole : List Char)
    (fraction : Option (List Char)) :
    withExponent whole fraction (Exponent.optionText exponent ++ rest) =
      (⟨whole, fraction, exponent⟩, rest) := by
  cases exponent with
  | none =>
      unfold withExponent
      rw [Exponent.optionText, List.nil_append, Exponent.scan_of_ends hrest]
  | some e =>
      rw [Exponent.optionText, withExponent_text_append (h e rfl),
        spanDigits_of_head? fun c hc => (hrest c hc).1, List.append_nil]

/-- Digits, a point, and all digits behind it are scanned before the exponent. -/
theorem scan_point (hdigit : whole ≠ [] ∨ digits ≠ []) (hwhole : ∀ c ∈ whole, c.isDigit = true)
    (hdigits : ∀ c ∈ digits, c.isDigit = true) (rest : List Char) :
    scan (whole ++ '.' :: (digits ++ rest)) =
      some (withExponent whole (some (digits ++ (spanDigits rest).1)) (spanDigits rest).2) := by
  have hspan : spanDigits (whole ++ '.' :: (digits ++ rest)) = (whole, '.' :: (digits ++ rest)) :=
    spanDigits_of_head hwhole (by intro c hc; cases hc; rfl)
  have hnonempty : ¬(whole.isEmpty && (digits ++ (spanDigits rest).1).isEmpty) = true := by
    simp only [Bool.and_eq_true, List.isEmpty_iff, List.append_eq_nil_iff]
    rintro ⟨hnil, hnil', -⟩
    rcases hdigit with hne | hne
    · exact hne hnil
    · exact hne hnil'
  simp only [scan, hspan, spanDigits_append_of_digits hdigits]
  rw [if_neg hnonempty]

/-- Digits without a point behind them are scanned before the exponent. -/
theorem scan_whole (hne : whole ≠ []) (hwhole : ∀ c ∈ whole, c.isDigit = true)
    (hrest : ∀ c, rest.head? = some c → c.isDigit = false ∧ c ≠ '.') :
    scan (whole ++ rest) = some (withExponent whole none rest) := by
  simp only [scan]
  rw [spanDigits_of_head hwhole fun c hc => (hrest c hc).1]
  split
  · next hpoint => exact absurd rfl (hrest '.' (congrArg List.head? hpoint)).2
  · rw [if_neg (mt List.isEmpty_iff.1 hne)]

/-- Digits at the start of a text are scanned with whatever goes on with them. -/
theorem exists_scan_of_digits (hne : whole ≠ []) (hwhole : ∀ c ∈ whole, c.isDigit = true)
    (rest : List Char) : ∃ l rest', scan (whole ++ rest) = some (l, rest') ∧ whole <+: l.text := by
  have hnonempty : (whole ++ (spanDigits rest).1).isEmpty = false := by
    simp [hne]
  have hbegins (fraction : Option (List Char)) (cs : List Char) :
      whole <+: (withExponent (whole ++ (spanDigits rest).1) fraction cs).1.text := by
    refine List.IsPrefix.trans ?_ (text_prefix_withExponent _ _ _)
    simp only [text, List.append_assoc]
    exact List.prefix_append _ _
  simp only [scan, spanDigits_append_of_digits hwhole, hnonempty, Bool.false_and,
    Bool.false_eq_true, if_false]
  split
  · exact ⟨_, _, rfl, hbegins _ _⟩
  · exact ⟨_, _, rfl, hbegins _ _⟩

theorem text_of_none (whole : List Char) (exponent : Option Exponent) :
    text ⟨whole, none, exponent⟩ = whole ++ Exponent.optionText exponent := by
  cases exponent <;> simp [text, Exponent.optionText]

theorem text_of_some (whole digits : List Char) (exponent : Option Exponent) :
    text ⟨whole, some digits, exponent⟩ =
      whole ++ '.' :: (digits ++ Exponent.optionText exponent) := by
  cases exponent <;> simp [text, Exponent.optionText]

theorem text_append_none (whole : List Char) (exponent : Option Exponent) (rest : List Char) :
    text ⟨whole, none, exponent⟩ ++ rest = whole ++ (Exponent.optionText exponent ++ rest) := by
  rw [text_of_none, List.append_assoc]

theorem text_append_some (whole digits : List Char) (exponent : Option Exponent)
    (rest : List Char) :
    text ⟨whole, some digits, exponent⟩ ++ rest =
      whole ++ '.' :: (digits ++ (Exponent.optionText exponent ++ rest)) := by
  rw [text_of_some, List.append_assoc, List.cons_append, List.append_assoc]

/-- **Whole literals.** A literal is scanned as a whole if what follows cannot go on with it. -/
theorem scan_text_append {l : Literal} (h : l.IsWellFormed) (hrest : Ends rest) :
    scan (l.text ++ rest) = some (l, rest) := by
  obtain ⟨whole, fraction, exponent⟩ := l
  obtain ⟨hdigit, hwhole, hfraction, hexponent⟩ := h
  have hbehind := Exponent.head?_optionText_append hexponent hrest
  cases fraction with
  | none =>
      have hne : whole ≠ [] := hdigit.resolve_right (not_not.2 rfl)
      rw [text_append_none, scan_whole hne hwhole hbehind, withExponent_append hexponent hrest]
  | some digits =>
      have hsome : whole ≠ [] ∨ digits ≠ [] := hdigit
      have hdigits : ∀ c ∈ digits, c.isDigit = true := hfraction
      rw [text_append_some, scan_point hsome hwhole hdigits,
        spanDigits_of_head? fun c hc => (hbehind c hc).1, List.append_nil,
        withExponent_append hexponent hrest]

/-- **The longest literal.** If a text starts with a literal, one is scanned that starts with it. -/
theorem exists_scan_append {l : Literal} (h : l.IsWellFormed) (rest : List Char) :
    ∃ longer rest', scan (l.text ++ rest) = some (longer, rest') ∧ l.text <+: longer.text := by
  obtain ⟨whole, fraction, exponent⟩ := l
  obtain ⟨hdigit, hwhole, hfraction, hexponent⟩ := h
  dsimp only at hdigit hwhole hfraction hexponent
  have hgrown (e : Exponent) : text ⟨whole, fraction, some e⟩ <+:
      text ⟨whole, fraction, some { e with digits := e.digits ++ (spanDigits rest).1 }⟩ := by
    refine ⟨(spanDigits rest).1, ?_⟩
    simp [text, Exponent.text]
  cases fraction with
  | none =>
      have hne : whole ≠ [] := hdigit.resolve_right (not_not.2 rfl)
      cases exponent with
      | none =>
          have hscan := exists_scan_of_digits hne hwhole rest
          simpa [text] using hscan
      | some e =>
          have he := hexponent e rfl
          have hmark := Exponent.head?_text_append he rest
          rw [text_append_none, Exponent.optionText, scan_whole hne hwhole hmark,
            withExponent_text_append he]
          exact ⟨_, _, rfl, hgrown e⟩
  | some digits =>
      have hsome : whole ≠ [] ∨ digits ≠ [] := hdigit
      have hdigits : ∀ c ∈ digits, c.isDigit = true := hfraction
      rw [text_append_some, scan_point hsome hwhole hdigits]
      cases exponent with
      | none =>
          have hbegins : text ⟨whole, some digits, none⟩ <+:
              text ⟨whole, some (digits ++ (spanDigits rest).1), none⟩ := by
            refine ⟨(spanDigits rest).1, ?_⟩
            simp [text]
          exact ⟨_, _, rfl, hbegins.trans (text_prefix_withExponent _ _ _)⟩
      | some e =>
          have he := hexponent e rfl
          have hmark := Exponent.head?_text_append he rest
          rw [Exponent.optionText, spanDigits_of_head? fun c hc => (hmark c hc).1, List.append_nil,
            withExponent_text_append he]
          exact ⟨_, _, rfl, hgrown e⟩

theorem isWellFormed_of_withExponent {l : Literal}
    (h : withExponent whole fraction cs = (l, rest)) (hdigit : whole ≠ [] ∨ fraction.getD [] ≠ [])
    (hwhole : ∀ c ∈ whole, c.isDigit = true)
    (hfraction : ∀ c ∈ fraction.getD [], c.isDigit = true) : l.IsWellFormed := by
  unfold withExponent at h
  split at h
  · next e _ hscan =>
    cases h
    refine ⟨hdigit, hwhole, hfraction, fun e' he' => ?_⟩
    obtain rfl := Option.some.inj he'
    exact Exponent.isWritten_of_scan hscan
  · cases h
    exact ⟨hdigit, hwhole, hfraction, fun e he => nomatch he⟩

/-- What is scanned is a literal. -/
theorem isWellFormed_of_scan {l : Literal} (h : scan cs = some (l, rest)) : l.IsWellFormed := by
  have hwhole : ∀ c ∈ (spanDigits cs).1, c.isDigit = true := fun c => isDigit_of_mem_spanDigits
  simp only [scan] at h
  split at h
  · next afterPoint _ =>
    have hfraction : ∀ c ∈ (spanDigits afterPoint).1, c.isDigit = true :=
      fun c => isDigit_of_mem_spanDigits
    split at h
    · cases h
    · next hne =>
      rw [Bool.and_eq_true, List.isEmpty_iff, List.isEmpty_iff, not_and_or] at hne
      exact isWellFormed_of_withExponent (Option.some.inj h) hne hwhole hfraction
  · split at h
    · cases h
    · next hne =>
      rw [List.isEmpty_iff] at hne
      exact isWellFormed_of_withExponent (Option.some.inj h) (.inl hne) hwhole
        (List.forall_mem_nil _)

end Literal

end GrowthGrammar.Decimal

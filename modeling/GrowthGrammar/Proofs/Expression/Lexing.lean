import GrowthGrammar.Expression.Reading
import GrowthGrammar.Proofs.Expression.Lexeme

/-!
# Cutting whole texts

A text is cut without loss (`lexFrom_isLossless`): the spans follow each other, each has the longest
lexeme that begins there, only spacing lies between them, and cutting stops where no lexeme begins.
Lexemes with a space between them are cut into themselves (`lexFrom_spaced`).
-/

set_option autoImplicit false

namespace GrowthGrammar

variable {offset position : Nat} {c : Char} {cs front back rest before after : List Char}
  {token : Token} {spanned : Spanned} {lexed : Lexed}

/-! ## Byte offsets -/

theorem byteSize_append (front back : List Char) :
    byteSize (front ++ back) = byteSize front + byteSize back := by
  induction front with
  | nil => exact (Nat.zero_add _).symm
  | cons c front ih => rw [List.cons_append, byteSize, byteSize, ih, Nat.add_assoc]

theorem byteSize_pos (h : cs ≠ []) : 0 < byteSize cs := by
  obtain ⟨c, rest, rfl⟩ := List.exists_cons_of_ne_nil h
  exact Nat.add_pos_left c.utf8Size_pos _

/-- Of two beginnings of a text, the one with fewer bytes begins the other. -/
theorem exists_append_of_byteSize_le (happend : front ++ back = before ++ after)
    (hle : byteSize front ≤ byteSize before) :
    ∃ middle, before = front ++ middle ∧ back = middle ++ after := by
  rcases List.append_eq_append_iff.1 happend with h | ⟨middle, rfl, rfl⟩
  · exact h
  · have hmiddle : middle = [] := by
      by_contra hne
      have hpos := byteSize_pos hne
      rw [byteSize_append] at hle
      omega
    subst hmiddle
    exact ⟨[], by simp⟩

/-! ## Lossless cuts -/

/-- A token was cut out of the text that begins at byte `offset`: it has the characters of its span,
they match the pattern of its kind, and no lexeme that begins there goes further. -/
structure Spanned.IsSlice (offset : Nat) (cs : List Char) (spanned : Spanned)
    (before after : List Char) : Prop where
  split : cs = before ++ (spanned.token.text ++ after)
  start_eq : spanned.start = offset + byteSize before
  stop_eq : spanned.stop = spanned.start + byteSize spanned.token.text
  start_lt_stop : spanned.start < spanned.stop
  of_kind : spanned.token.text ∈ spanned.token.kind.pattern.matches'
  longest : ∀ lexeme, Token.IsLexeme lexeme → lexeme <+: spanned.token.text ++ after →
    lexeme.length ≤ spanned.token.text.length

/-- The character at a position is not spacing, and no lexeme begins there. -/
def FaultsAt (offset : Nat) (cs : List Char) (position : Nat) : Prop :=
  ∃ before c after, cs = before ++ c :: after ∧ position = offset + byteSize before ∧
    isSpacing c = false ∧ ∀ lexeme, Token.IsLexeme lexeme → ¬lexeme <+: c :: after

/-- The tokens, the fault and spacing account for every character of the text that begins at byte
`offset`. -/
structure Lexed.IsLossless (offset : Nat) (cs : List Char) (lexed : Lexed) : Prop where
  disjoint : lexed.tokens.Pairwise fun left right => left.stop ≤ right.start
  slices : ∀ spanned ∈ lexed.tokens, ∃ before after, spanned.IsSlice offset cs before after
  -- What no span contains is spacing, up to the fault or to the end.
  gaps : ∀ before c after, cs = before ++ c :: after →
    (∀ position, lexed.fault = some position → offset + byteSize before < position) →
    (∀ spanned ∈ lexed.tokens,
      offset + byteSize before < spanned.start ∨ spanned.stop ≤ offset + byteSize before) →
    isSpacing c = true
  faults : ∀ position, lexed.fault = some position →
    FaultsAt offset cs position ∧ ∀ spanned ∈ lexed.tokens, spanned.stop ≤ position

/-- The first token is the longest lexeme. -/
theorem Spanned.isSlice_first (hfirst : Token.first? cs = some (token, rest)) (offset : Nat) :
    Spanned.IsSlice offset cs ⟨token, offset, offset + byteSize token.text⟩ [] rest where
  split := (Token.text_append_of_first hfirst).symm
  start_eq := rfl
  stop_eq := rfl
  start_lt_stop := Nat.lt_add_of_pos_right (byteSize_pos (Token.text_ne_nil_of_first hfirst))
  of_kind := Token.matches_of_first? hfirst
  longest := by
    rintro lexeme ⟨kind, hkind⟩ ⟨back, happend⟩
    obtain ⟨token', rest', hfirst', hbegins⟩ := Token.exists_first?_append hkind back
    rw [happend, Token.text_append_of_first hfirst, hfirst] at hfirst'
    cases hfirst'
    exact hbegins.length_le

/-! ### More text in front -/

theorem Spanned.IsSlice.shift
    (h : spanned.IsSlice (offset + byteSize front) rest before after) :
    spanned.IsSlice offset (front ++ rest) (front ++ before) after where
  split := by rw [h.split, List.append_assoc]
  start_eq := by rw [h.start_eq, byteSize_append, Nat.add_assoc]
  stop_eq := h.stop_eq
  start_lt_stop := h.start_lt_stop
  of_kind := h.of_kind
  longest := h.longest

theorem FaultsAt.shift (h : FaultsAt (offset + byteSize front) rest position) :
    FaultsAt offset (front ++ rest) position := by
  obtain ⟨before, c, after, rfl, rfl, hspacing, hnone⟩ := h
  refine ⟨front ++ before, c, after, ?_, ?_, hspacing, hnone⟩
  · rw [List.append_assoc]
  · rw [byteSize_append, Nat.add_assoc]

theorem FaultsAt.le (h : FaultsAt offset cs position) : offset ≤ position := by
  obtain ⟨before, c, after, -, rfl, -⟩ := h
  exact Nat.le_add_right _ _

namespace Lexed.IsLossless

/-- A gap that does not begin inside the text in front. -/
theorem gaps_behind (h : lexed.IsLossless (offset + byteSize front) rest)
    (hsplit : front ++ rest = before ++ c :: after) (hle : byteSize front ≤ byteSize before)
    (hfault : ∀ position, lexed.fault = some position → offset + byteSize before < position)
    (hspans : ∀ spanned ∈ lexed.tokens,
      offset + byteSize before < spanned.start ∨ spanned.stop ≤ offset + byteSize before) :
    isSpacing c = true := by
  obtain ⟨middle, rfl, hrest⟩ := exists_append_of_byteSize_le hsplit hle
  rw [byteSize_append, ← Nat.add_assoc] at hfault hspans
  exact h.gaps middle c after hrest hfault hspans

/-! ### One step -/

theorem nil (offset : Nat) : Lexed.IsLossless offset [] ⟨[], none⟩ where
  disjoint := .nil
  slices := List.forall_mem_nil _
  gaps before c after hsplit := by simp at hsplit
  faults _ h := nomatch h

/-- The text stops at a character that begins no token. -/
theorem stuck (hspacing : isSpacing c = false) (hnone : Token.first? (c :: rest) = none)
    (offset : Nat) : Lexed.IsLossless offset (c :: rest) ⟨[], some offset⟩ where
  disjoint := .nil
  slices := List.forall_mem_nil _
  gaps before d after _ hfault _ := absurd (hfault offset rfl) (by omega)
  faults position hposition := by
    obtain rfl := Option.some.inj hposition
    refine ⟨⟨[], c, rest, rfl, rfl, hspacing, ?_⟩, List.forall_mem_nil _⟩
    rintro lexeme ⟨kind, hkind⟩ ⟨back, happend⟩
    obtain ⟨token, rest', hfirst, -⟩ := Token.exists_first?_append hkind back
    rw [happend, hnone] at hfirst
    cases hfirst

/-- Spacing is skipped. -/
theorem skip (hspacing : isSpacing c = true)
    (h : lexed.IsLossless (offset + c.utf8Size) rest) : lexed.IsLossless offset (c :: rest) := by
  have hshift : lexed.IsLossless (offset + byteSize [c]) rest := h
  refine ⟨h.disjoint, fun spanned hmem => ?_, fun before d after hsplit hfault hspans => ?_,
    fun position hposition => ?_⟩
  · obtain ⟨before, after, hslice⟩ := hshift.slices spanned hmem
    exact ⟨[c] ++ before, after, hslice.shift⟩
  · cases before with
    | nil =>
        obtain ⟨rfl, -⟩ := List.cons.inj hsplit
        exact hspacing
    | cons b before =>
        obtain ⟨rfl, -⟩ := List.cons.inj hsplit
        exact hshift.gaps_behind hsplit (Nat.add_le_add_left (Nat.zero_le _) _) hfault hspans
  · obtain ⟨hfaults, hstops⟩ := hshift.faults position hposition
    exact ⟨hfaults.shift, hstops⟩

/-- A token is cut off in front of what is cut without loss. -/
theorem cons (hfirst : Token.first? cs = some (token, rest))
    (h : lexed.IsLossless (offset + byteSize token.text) rest) :
    Lexed.IsLossless offset cs
      ⟨⟨token, offset, offset + byteSize token.text⟩ :: lexed.tokens, lexed.fault⟩ := by
  have htext := Token.text_append_of_first hfirst
  refine ⟨.cons (fun spanned hmem => ?_) h.disjoint, List.forall_mem_cons.2 ⟨?_, ?_⟩,
    fun before c after hsplit hfault hspans => ?_, fun position hposition => ?_⟩
  · obtain ⟨before, after, hslice⟩ := h.slices spanned hmem
    rw [hslice.start_eq]
    exact Nat.le_add_right _ _
  · exact ⟨[], rest, Spanned.isSlice_first hfirst offset⟩
  · intro spanned hmem
    obtain ⟨before, after, hslice⟩ := h.slices spanned hmem
    exact ⟨token.text ++ before, after, htext ▸ hslice.shift⟩
  · obtain ⟨hfront, hspans⟩ := List.forall_mem_cons.1 hspans
    have hle : byteSize token.text ≤ byteSize before := by
      dsimp only at hfront
      omega
    exact h.gaps_behind (htext.trans hsplit) hle hfault hspans
  · obtain ⟨hfaults, hstops⟩ := h.faults position hposition
    exact ⟨htext ▸ hfaults.shift, List.forall_mem_cons.2 ⟨hfaults.le, hstops⟩⟩

end Lexed.IsLossless

/-! ### Whole texts -/

theorem lexFrom_isLossless (offset : Nat) (cs : List Char) :
    (lexFrom offset cs).IsLossless offset cs := by
  fun_induction lexFrom offset cs with
  | case1 offset => exact .nil offset
  | case2 offset c rest hspacing ih => exact .skip hspacing ih
  | case3 offset c rest hspacing hfirst =>
      exact .stuck (Bool.eq_false_iff.2 hspacing) hfirst offset
  | case4 offset c rest hspacing token rest' hfirst stop lexed ih => exact .cons hfirst ih

/-! ## Lexemes with spaces between them -/

/-- The kind of a token and its text. -/
def Token.lexeme (token : Token) : Token.Kind × List Char :=
  (token.kind, token.text)

/-- The texts of lexemes with a space between each two. -/
def spaced (lexemes : List (Token.Kind × List Char)) : List Char :=
  [' '].intercalate (lexemes.map Prod.snd)

/-- Behind the first lexeme there is nothing, or a space and the other lexemes. -/
theorem exists_spaced_cons (lexeme : Token.Kind × List Char)
    (lexemes : List (Token.Kind × List Char)) :
    ∃ tail, spaced (lexeme :: lexemes) = lexeme.2 ++ tail ∧
      (∀ c, tail.head? = some c → isSpacing c = true) ∧
      ∀ offset, ∃ offset', lexFrom offset tail = lexFrom offset' (spaced lexemes) := by
  cases lexemes with
  | nil =>
      refine ⟨[], ?_, fun c hc => (nomatch hc), fun offset => ⟨offset, rfl⟩⟩
      simp [spaced]
  | cons next lexemes =>
      refine ⟨' ' :: spaced (next :: lexemes), ?_, fun c hc => ?_, fun offset =>
        ⟨_, lexFrom_of_isSpacing rfl offset _⟩⟩
      · simp [spaced]
      · obtain rfl := Option.some.inj hc
        rfl

/-- **Spaces separate.** Lexemes with spaces between them are cut into themselves. -/
theorem lexFrom_spaced {lexemes : List (Token.Kind × List Char)}
    (h : ∀ lexeme ∈ lexemes, lexeme.2 ∈ lexeme.1.pattern.matches') (offset : Nat) :
    (lexFrom offset (spaced lexemes)).fault = none ∧
      (lexFrom offset (spaced lexemes)).tokens.map (fun spanned => spanned.token.lexeme) =
        lexemes := by
  induction lexemes generalizing offset with
  | nil =>
      have hnil : spaced [] = [] := rfl
      rw [hnil, lexFrom_nil]
      exact ⟨rfl, rfl⟩
  | cons lexeme lexemes ih =>
      obtain ⟨hlexeme, hlexemes⟩ := List.forall_mem_cons.1 h
      obtain ⟨tail, hspaced, htail, hskip⟩ := exists_spaced_cons lexeme lexemes
      obtain ⟨token, hfirst, hkind, htext⟩ := Token.exists_first?_of_isSpacing hlexeme htail
      obtain ⟨offset', hoffset⟩ := hskip (offset + byteSize token.text)
      obtain ⟨hfault, htokens⟩ := ih hlexemes offset'
      rw [hspaced, lexFrom_of_first? hfirst, hoffset]
      refine ⟨hfault, ?_⟩
      rw [List.map_cons, htokens, Token.lexeme, hkind, htext]

/-! ## Sources -/

/-- **Lexing loses nothing and takes the longest tokens.** Every source is cut without loss, and the
position of a fault is the one that its error names. Conversely any lexemes can be written with
spaces between them and are read back. -/
theorem lex_lossless :
    (∀ source : String, (lex source).IsLossless 0 source.toList ∧
      ∀ position, (lex source).fault = some position →
        Expression.parse source = .error (.lexical source position)) ∧
    ∀ lexemes : List (Token.Kind × List Char),
      (∀ lexeme ∈ lexemes, lexeme.2 ∈ lexeme.1.pattern.matches') →
      (lex (String.ofList (spaced lexemes))).fault = none ∧
        (lex (String.ofList (spaced lexemes))).tokens.map
          (fun spanned => spanned.token.lexeme) = lexemes := by
  refine ⟨fun source => ⟨lexFrom_isLossless 0 source.toList, fun position hfault => ?_⟩,
    fun lexemes hlexemes => ?_⟩
  · rw [Expression.parse]
    simp only [hfault]
  · rw [lex, String.toList_ofList]
    exact lexFrom_spaced hlexemes 0

/-- A mark that begins no token, and lexemes of three kinds. -/
theorem lex_lossless_bare_exponent :
    (lex "2e$").IsLossless 0 "2e$".toList ∧
      Expression.parse "2e$" = .error (.lexical "2e$" 2) ∧
      (lex "2 e (").tokens.map (fun spanned => spanned.token.lexeme) =
        [(.number, ['2']), (.name, ['e']), (.openParen, ['('])] := by
  obtain ⟨hlossless, hparse⟩ := lex_lossless.1 "2e$"
  refine ⟨hlossless, hparse 2 (by decide +kernel), (lex_lossless.2 [(.number, ['2']),
    (.name, ['e']), (.openParen, ['('])] ?_).2⟩
  simp only [List.forall_mem_cons]
  refine ⟨?_, ?_, rfl, List.forall_mem_nil _⟩
  · exact (RegularExpression.rmatch_iff_matches' _ _).1 (by decide)
  · exact (RegularExpression.rmatch_iff_matches' _ _).1 (by decide)

/-- An `e` with no digits behind it is a name of its own. -/
example : (lex "2e").tokens.map (fun spanned => spanned.token.lexeme) =
    [(.number, ['2']), (.name, ['e'])] := by
  decide +kernel

end GrowthGrammar

import LateMarkup.Proofs.GeneratedCode

/-!
# Reading literals

Whoever reads generated code follows a literal from its first quote to the one that closes it. What
is written for a text is read as that text, whatever stands behind it (`read?_encode`): no character
of the text closes the literal, breaks it off, or opens an interpolation. `scan` also tells how the
reading of any other literal ends, so that these three can be told apart (`scan_body`).
-/

namespace LateMarkup.Jsx.Literal

def quotes : List Char := ['\'', '"', backtick]

def unescaped (c : Char) : Char :=
  if c = 'n' then '\n' else if c = 'r' then '\r' else c

/-- Reads a literal from behind its first quote. The result is the text that it stands for, and what
stands behind the quote that closes it. There is none where the literal is not closed, where a line
breaks that must not, and where an interpolation starts. Every other character between backticks
stands for itself, as the JSX-like target has it, also a raw carriage return, which a JavaScript
engine would read as a line feed. -/
def read? (quote : Char) : List Char → Option (List Char × List Char)
  | [] => none
  | ['\\'] => none
  | '\\' :: c :: rest => (read? quote rest).map (Prod.map (unescaped c :: ·) id)
  | c :: rest =>
    if c = quote then some ([], rest)
    else if (c = '\n' ∨ c = '\r') ∧ quote ≠ backtick then none
    else if c = '$' ∧ quote = backtick ∧ rest.head? = some '{' then none
    else (read? quote rest).map (Prod.map (c :: ·) id)

variable {quote c : Char}

theorem read?_cons (hc : c ≠ '\\') (rest : List Char) :
    read? quote (c :: rest) =
      if c = quote then some ([], rest)
      else if (c = '\n' ∨ c = '\r') ∧ quote ≠ backtick then none
      else if c = '$' ∧ quote = backtick ∧ rest.head? = some '{' then none
      else (read? quote rest).map (Prod.map (c :: ·) id) := by
  rw [read?]
  · exact fun h _ => hc h
  · exact fun _ _ h _ => hc h

theorem read?_plain (hquote : c ≠ quote) (escape : c ≠ '\\')
    (line : (c = '\n' ∨ c = '\r') → quote = backtick) {rest : List Char}
    (dollar : c = '$' → quote = backtick → rest.head? ≠ some '{') :
    read? quote (c :: rest) = (read? quote rest).map (Prod.map (c :: ·) id) := by
  rw [read?_cons escape, if_neg hquote, if_neg fun h => h.2 (line h.1),
    if_neg fun h => dollar h.1 h.2.1 h.2.2]

/-- Whatever is written for a character is read as that character. -/
theorem read?_spell (hquote : quote ∈ quotes) {next : Option Char} {rest : List Char}
    (brace : rest.head? = some '{' → next = some '{') :
    read? quote (spell quote c next ++ rest) =
      (read? quote rest).map (Prod.map (c :: ·) id) := by
  have plain : quote ≠ 'n' ∧ quote ≠ 'r' := by
    revert hquote
    unfold quotes
    simp only [List.mem_cons, List.not_mem_nil, or_false]
    rintro (rfl | rfl | rfl) <;> decide
  unfold spell
  split_ifs with escape feed turn dollar closing
  · subst escape
    rfl
  · rw [feed.1]
    rfl
  · rw [turn.1]
    rfl
  · rw [dollar.1]
    rfl
  · subst closing
    show (read? c rest).map (Prod.map (unescaped c :: ·) id) = _
    rw [unescaped, if_neg plain.1, if_neg plain.2]
  · apply read?_plain closing escape
    · rintro (line | line)
      · exact not_not.mp fun other => feed ⟨line, other⟩
      · exact not_not.mp fun other => turn ⟨line, other⟩
    · exact fun hc hbacktick hrest => dollar ⟨hc, hbacktick, brace hrest⟩

/-- No brace comes up in front that was not there in the text. -/
theorem head?_encode (hquote : quote ∈ quotes) {text behind : List Char}
    (brace : (encode quote text ++ quote :: behind).head? = some '{') : text.head? = some '{' := by
  cases text with
  | nil =>
      cases brace
      exact absurd hquote (by decide)
  | cons c rest =>
      rw [encode] at brace
      rcases spell_cases quote c rest.head? with plain | ⟨d, escaped, -⟩
      · rw [plain] at brace
        exact brace
      · rw [escaped] at brace
        cases brace

/-- **What is written for a text is read as that text**, whatever stands behind it. -/
theorem read?_encode (hquote : quote ∈ quotes) (text behind : List Char) :
    read? quote (encode quote text ++ quote :: behind) = some (text, behind) := by
  induction text with
  | nil =>
      have escape : quote ≠ '\\' := by
        rintro rfl
        exact absurd hquote (by decide)
      rw [encode, List.nil_append, read?_cons escape, if_pos rfl]
  | cons c rest ih =>
      rw [encode, List.append_assoc, read?_spell hquote (head?_encode hquote), ih]
      rfl

/-! ## How a reading ends -/

/-- How the reading of a literal ends. -/
inductive Ending where
  /-- The quote closes it, and `rest` stands behind the quote. -/
  | closed (rest : List Char)
  /-- A line breaks between quotes that must stand on one line. -/
  | lineBreak (rest : List Char)
  /-- An interpolation starts, and `rest` stands behind its dollar sign. -/
  | interpolation (rest : List Char)
  | unclosed
deriving DecidableEq

/-- Reads a literal from behind its first quote up to where the reading ends. -/
def scan (quote : Char) : List Char → List Char × Ending
  | [] => ([], .unclosed)
  | c :: rest =>
    if c = '\\' then
      match rest with
      | [] => ([], .unclosed)
      | escaped :: rest => (scan quote rest).map (unescaped escaped :: ·) id
    else if c = quote then ([], .closed rest)
    else if (c = '\n' ∨ c = '\r') ∧ quote ≠ backtick then ([], .lineBreak rest)
    else if c = '$' ∧ quote = backtick ∧ rest.head? = some '{' then ([], .interpolation rest)
    else (scan quote rest).map (c :: ·) id

def closed? : List Char × Ending → Option (List Char × List Char)
  | (text, .closed rest) => some (text, rest)
  | _ => none

theorem closed?_map (front : List Char → List Char) (reading : List Char × Ending) :
    closed? (reading.map front id) = (closed? reading).map (Prod.map front id) := by
  obtain ⟨text, ending⟩ := reading
  cases ending <;> rfl

theorem eq_of_closed? {reading : List Char × Ending} {text rest : List Char}
    (h : closed? reading = some (text, rest)) : reading = (text, .closed rest) := by
  obtain ⟨found, ending⟩ := reading
  cases ending <;> cases h
  rfl

/-- A literal has a text if its quote closes it, and only then. -/
theorem read?_eq_closed? (quote : Char) (cs : List Char) :
    read? quote cs = closed? (scan quote cs) := by
  fun_induction scan quote cs with
  | case1 => rfl
  | case2 => rfl
  | case3 escaped rest ih => rw [read?, ih, closed?_map]
  | case4 rest escape =>
      rw [read?_cons escape, if_pos rfl]
      rfl
  | case5 c rest escape other line =>
      rw [read?_cons escape, if_neg other, if_pos line]
      rfl
  | case6 c rest escape other line dollar =>
      rw [read?_cons escape, if_neg other, if_neg line, if_pos dollar]
      rfl
  | case7 c rest escape other line dollar ih =>
      rw [read?_cons escape, if_neg other, if_neg line, if_neg dollar, ih, closed?_map]

/-- **Escaped text does not leave its literal.** Whatever the text is made of and whatever stands
behind its closing quote, reading meets no line break that must not be there and no interpolation,
ends at that quote, and gives the text. -/
theorem scan_body (hquote : quote ∈ quotes) (text behind : String) :
    scan quote (body quote text ++ String.singleton quote ++ behind).toList =
      (text.toList, .closed behind.toList) := by
  apply eq_of_closed?
  rw [← read?_eq_closed?, String.toList_append, String.toList_append, String.toList_singleton,
    List.append_assoc, body, String.toList_ofList]
  exact read?_encode hquote text.toList behind.toList

theorem scan_body_backticks :
    backtick ∈ quotes ∧
    scan backtick (body backtick "\\`$$\x7bd\x7d\n$" ++ String.singleton backtick ++
        "\x7bd\x7d").toList =
      ("\\`$$\x7bd\x7d\n$".toList, .closed "\x7bd\x7d".toList) :=
  ⟨by decide, scan_body (by decide) "\\`$$\x7bd\x7d\n$" "\x7bd\x7d"⟩

end LateMarkup.Jsx.Literal

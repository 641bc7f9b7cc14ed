import CameraMotion.Toml.Number
import CameraMotion.Toml.Text

/-!
# Quoted texts of a TOML document

A basic text stands in double quotes and knows escapes; a literal text stands in
single quotes and means what it shows.  In three quotes either may run over
several lines, and may end in one or two quotes of its own.
-/

namespace CameraMotion.Toml

/-- Put a character in front of a text that was read. -/
def push (c : Char) : Option (List Char × List Char) → Option (List Char × List Char) :=
  Option.map fun (text, rest) => (c :: text, rest)

/-! ## Escapes -/

/-- The character that a letter after a backslash stands for. -/
def escaped? : Char → Option Char
  | 'b' => some '\x08'
  | 't' => some '\t'
  | 'n' => some '\n'
  | 'f' => some '\x0c'
  | 'r' => some '\r'
  | '"' => some '"'
  | '\\' => some '\\'
  | _ => none

/-- The character with a code point given in hexadecimal digits, if there is
one. -/
def codePoint? (code : List Char) : Option Char := do
  let digits ← code.mapM (digitIn? 16)
  let n := ofDigits 16 digits
  if n.isValidChar then some (Char.ofNat n) else none

/-- Read the line end after a backslash, and all blanks and line ends after it. -/
def lineContinuation? (s : List Char) : Option (List Char) :=
  (newline? (skipBlanks s)).map skipLines

/-- A continued line is at least one character shorter. -/
theorem length_lt_of_lineContinuation? {s rest : List Char}
    (h : lineContinuation? s = some rest) : rest.length < s.length := by
  obtain ⟨left, hleft, rfl⟩ := Option.map_eq_some_iff.mp h
  have := length_lt_of_newline? hleft
  have := length_skipBlanks_le s
  have := length_skipLines_le left
  omega

/-! ## The end of a text over several lines -/

/-- Read the two quotes that make a closing quote one of three. -/
def closing? (quote : Char) : List Char → Option (List Char)
  | a :: b :: rest => if a = quote && b = quote then some rest else none
  | _ => none

/-- Up to two further quotes after the closing ones belong to the text. -/
def trailingQuotes (quote : Char) : List Char → List Char × List Char
  | a :: b :: rest =>
      if a = quote then
        if b = quote then ([quote, quote], rest) else ([quote], b :: rest)
      else ([], a :: b :: rest)
  | [a] => if a = quote then ([quote], []) else ([], [a])
  | [] => ([], [])

/-! ## Basic texts -/

/-- Read a basic text up to its closing quotes. -/
def basicBody (multiline : Bool) : List Char → Option (List Char × List Char)
  | [] => none
  | '"' :: rest =>
      if multiline then
        match closing? '"' rest with
        | some after => some (trailingQuotes '"' after)
        | none => push '"' (basicBody multiline rest)
      else some ([], rest)
  | '\\' :: 'u' :: a :: b :: c :: d :: rest => do
      let x ← codePoint? [a, b, c, d]
      push x (basicBody multiline rest)
  | '\\' :: 'U' :: a :: b :: c :: d :: e :: f :: g :: h :: rest => do
      let x ← codePoint? [a, b, c, d, e, f, g, h]
      push x (basicBody multiline rest)
  | '\\' :: c :: rest =>
      match escaped? c with
      | some x => push x (basicBody multiline rest)
      | none =>
          if multiline then
            match hcont : lineContinuation? (c :: rest) with
            | some after =>
                have : after.length < rest.length + 1 := length_lt_of_lineContinuation? hcont
                basicBody multiline after
            | none => none
          else none
  | '\r' :: '\n' :: rest =>
      if multiline then push '\n' (basicBody multiline rest) else none
  | c :: rest =>
      if isAllowed c && c ≠ '\\' || multiline && c = '\n' then
        push c (basicBody multiline rest)
      else none
termination_by s => s.length

/-! ## Literal texts -/

/-- Read a literal text up to its closing quotes. -/
def literalBody (multiline : Bool) : List Char → Option (List Char × List Char)
  | [] => none
  | '\'' :: rest =>
      if multiline then
        match closing? '\'' rest with
        | some after => some (trailingQuotes '\'' after)
        | none => push '\'' (literalBody multiline rest)
      else some ([], rest)
  | '\r' :: '\n' :: rest =>
      if multiline then push '\n' (literalBody multiline rest) else none
  | c :: rest =>
      if isAllowed c || multiline && c = '\n' then push c (literalBody multiline rest)
      else none

/-! ## Quoted texts -/

/-- Drop the line end right after the opening quotes. -/
def skipFirstNewline (s : List Char) : List Char :=
  (newline? s).getD s

/-- Read a text on one line. -/
def line? : List Char → Option (List Char × List Char)
  | '"' :: rest => basicBody false rest
  | '\'' :: rest => literalBody false rest
  | _ => none

/-- Read a text, over several lines if three quotes open it. -/
def text? : List Char → Option (List Char × List Char)
  | '"' :: '"' :: '"' :: rest => basicBody true (skipFirstNewline rest)
  | '\'' :: '\'' :: '\'' :: rest => literalBody true (skipFirstNewline rest)
  | s => line? s

end CameraMotion.Toml

/-!
# The text of a TOML document

Characters, blanks, line ends and comments.  Every reader of this folder takes
the rest of a document as a list of characters and returns what it has read
together with what is left.

Main results:

- Theorem `length_skipLines_le`: skipping blank lines never makes a text longer.
-/

namespace CameraMotion.Toml

/-- Blanks separate parts of a line. -/
def isBlank (c : Char) : Bool :=
  c = ' ' || c = '\t'

/-- The characters that comments and texts may hold: the tab and everything that
is not a control character of ASCII. -/
def isAllowed (c : Char) : Bool :=
  c = '\t' || (' ' ≤ c && c ≠ '\x7f')

/-- Drop leading blanks. -/
def skipBlanks (s : List Char) : List Char :=
  s.dropWhile isBlank

/-- Read a line end: a line feed, alone or after a carriage return. -/
def newline? : List Char → Option (List Char)
  | '\n' :: rest => some rest
  | '\r' :: '\n' :: rest => some rest
  | _ => none

/-- Drop a comment that begins here. -/
def skipComment : List Char → List Char
  | '#' :: rest => rest.dropWhile isAllowed
  | s => s

/-- Read what may stand at the end of a line: blanks, a comment, and the line end
or the end of the document. -/
def lineEnd? (s : List Char) : Option (List Char) :=
  match skipComment (skipBlanks s) with
  | [] => some []
  | rest => newline? rest

/-- Drop leading blanks and line ends. -/
def skipLines : List Char → List Char
  | [] => []
  | '\r' :: '\n' :: rest => skipLines rest
  | c :: rest => if isBlank c || c = '\n' then skipLines rest else c :: rest

/-- Drop leading blanks, line ends and comments.  A comment has to end with its
line. -/
def skipGaps (inComment : Bool) : List Char → List Char
  | [] => []
  | '\r' :: '\n' :: rest => skipGaps false rest
  | c :: rest =>
      if c = '\n' then skipGaps false rest
      else if inComment then
        if isAllowed c then skipGaps true rest else c :: rest
      else if isBlank c then skipGaps false rest
      else if c = '#' then skipGaps true rest
      else c :: rest

/-- Skipping blank lines never makes a text longer. -/
theorem length_skipLines_le (s : List Char) : (skipLines s).length ≤ s.length := by
  fun_induction skipLines s with
  | case1 => simp
  | case2 rest ih => simp only [List.length_cons]; omega
  | case3 c rest hne hblank ih => simp only [List.length_cons]; omega
  | case4 => exact Nat.le_refl _

/-- A line end takes at least one character. -/
theorem length_lt_of_newline? {s rest : List Char} (h : newline? s = some rest) :
    rest.length < s.length := by
  unfold newline? at h
  split at h
  · cases h
    simp
  · cases h
    simp only [List.length_cons]
    omega
  · cases h

/-- Dropping blanks never makes a text longer. -/
theorem length_skipBlanks_le (s : List Char) : (skipBlanks s).length ≤ s.length :=
  (List.dropWhile_sublist isBlank).length_le

end CameraMotion.Toml

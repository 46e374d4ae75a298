import Mathlib.Data.Nat.Notation

/-! `expandvars` (`os/path/path.mojo`): references to environment variables in a path are replaced by their values.
    Strings are their bytes; every place where the source cuts one is next to an ASCII byte. -/

namespace MojoProse.Stdlib
open List

def dollar : UInt8 := 0x24
def openBrace : UInt8 := 0x7B
def closeBrace : UInt8 := 0x7D

/-- `_is_shell_special_variable`: `*#$@!?-` and the digits. -/
def isShellSpecialVariable (byte : UInt8) : Bool :=
  byte.toNat ∈ [0x2A, 0x23, 0x24, 0x40, 0x21, 0x3F, 0x2D, 0x30, 0x31, 0x32, 0x33, 0x34, 0x35, 0x36, 0x37, 0x38, 0x39]

/-- `_is_alphanumeric`: an ASCII letter, a digit or an underscore. -/
def isAlphanumeric (byte : UInt8) : Bool :=
  byte = 0x5F || 0x30 ≤ byte && byte ≤ 0x39 || 0x61 ≤ byte && byte ≤ 0x7A || 0x41 ≤ byte && byte ≤ 0x5A

/-- An environment. No name is empty, and none has a NUL byte. -/
structure Environment where
  value : List UInt8 → Option (List UInt8)
  nonempty : value [] = none
  noNul : ∀ name, 0 ∈ name → value name = none

/-- What C reads of a string: it ends in front of the first NUL byte. -/
def cString (bytes : List UInt8) : List UInt8 := bytes.takeWhile (· != 0)

/-- `getenv` (`env.mojo`). -/
def Environment.getenv (env : Environment) (name : List UInt8) : List UInt8 := (env.value (cString name)).getD []

/-- `bytes[start:stop]`. -/
def slice (bytes : List UInt8) (start stop : ℕ) : List UInt8 := (bytes.drop start).take (stop - start)

/-- `while i < len(bytes) and cond(bytes[i]): i += 1`. -/
def scanWhile (cond : UInt8 → Bool) (bytes : List UInt8) (i : ℕ) : ℕ :=
  if h : i < bytes.length then (if cond bytes[i] then scanWhile cond bytes (i + 1) else i) else i

/-- `_parse_variable_name`: the name, and how many bytes it takes. -/
def parseVariableName (bytes : List UInt8) : List UInt8 × ℕ :=
  if bytes[0]? = some openBrace then
    if bytes.length > 2 ∧ (bytes[1]?).any isShellSpecialVariable ∧ bytes[2]? = some closeBrace then (slice bytes 1 2, 3)
    else
      let i := scanWhile (· != closeBrace) bytes 1
      if i < bytes.length then (slice bytes 1 i, i + 1) else (slice bytes 1 i, i)
  else if (bytes[0]?).any isShellSpecialVariable then (slice bytes 0 1, 1)
  else
    let i := scanWhile isAlphanumeric bytes 0
    (slice bytes 0 i, i)

/-- What is written for the reference at `j`, and how many bytes its name takes. -/
def expandReference (env : Environment) (path : List UInt8) (j : ℕ) : List UInt8 × ℕ :=
  let (name, length) := parseVariableName (path.drop (j + 1))
  if name.head? = some openBrace ∨ name = [] then (slice path j (j + length + 1), length)
  else if (name.head?).any isShellSpecialVariable then (slice path j (j + 2), length)
  else
    let value := env.getenv name
    if value ≠ [] then (value, length) else (slice path j (j + length + 1), length)

/-- The loop of `expandvars`: everything before `i` has been written to `buf`. -/
def expandvarsFrom (env : Environment) (path buf : List UInt8) (i j : ℕ) : List UInt8 × ℕ :=
  if j < path.length then
    if path[j]? = some dollar ∧ j + 1 < path.length then
      let written := expandReference env path j
      expandvarsFrom env path (buf ++ slice path i j ++ written.1) (j + written.2 + 1) (j + written.2 + 1)
    else expandvarsFrom env path buf i (j + 1)
  else (buf, i)
termination_by path.length - j

def expandvars (env : Environment) (path : List UInt8) : List UInt8 :=
  let (buf, i) := expandvarsFrom env path [] 0 0
  if buf = [] then path else buf ++ path.drop i

/-- A path is a sequence of these. What follows an opening brace that is not closed is no name, up to the end. -/
inductive Piece where
  | byte (b : UInt8)
  | special (b : UInt8)
  | plain (name : List UInt8)
  | braced (name : List UInt8)
  | unclosed (rest : List UInt8)

/-- The pieces of a path, each of them as long as it can be. -/
def pieces : List UInt8 → List Piece
  | [] => []
  | b :: rest =>
    if b = dollar then
      match rest with
      | [] => [.byte b]
      | c :: after =>
        if c = openBrace then
          if closeBrace ∈ after then
            .braced (after.takeWhile (· != closeBrace)) :: pieces ((after.dropWhile (· != closeBrace)).drop 1)
          else [.unclosed after]
        else if isShellSpecialVariable c then .special c :: pieces after
        else if isAlphanumeric c then
          .plain (c :: after.takeWhile isAlphanumeric) :: pieces (after.dropWhile isAlphanumeric)
        else .byte b :: pieces (c :: after)
    else .byte b :: pieces rest
termination_by path => path.length
decreasing_by
  · have hle := (dropWhile_sublist (· != closeBrace) (l := after)).length_le
    simp only [length_cons, length_drop]
    omega
  · simp only [length_cons]
    omega
  · have hle := (dropWhile_sublist isAlphanumeric (l := after)).length_le
    simp only [length_cons]
    omega
  · simp only [length_cons]
    omega
  · simp only [length_cons]
    omega

namespace Piece

def text : Piece → List UInt8
  | byte b => [b]
  | special b => [dollar, b]
  | plain name => dollar :: name
  | braced name => dollar :: openBrace :: (name ++ [closeBrace])
  | unclosed rest => dollar :: openBrace :: rest

/-- Between braces: nothing, or another brace. -/
def malformed (name : List UInt8) : Bool := name = [] || name.head? = some openBrace

/-- Between braces: a special variable. -/
def isSpecial (name : List UInt8) : Bool := (name.head?).any isShellSpecialVariable

/-- The value of a variable that has one that is not empty, or else the reference. -/
def valueOr (env : Environment) (name text : List UInt8) : List UInt8 :=
  match env.value name with
  | some (b :: value) => b :: value
  | _ => text

/-- What a piece is to be replaced by. -/
def expanded (env : Environment) : Piece → List UInt8
  | plain name => valueOr env name (plain name).text
  | braced name =>
    if malformed name ∨ isSpecial name then (braced name).text else valueOr env name (braced name).text
  | piece => piece.text

end Piece

/-- The path with each reference to a variable that has a value replaced by the value. -/
def expandedPath (env : Environment) (path : List UInt8) : List UInt8 := (pieces path).flatMap (Piece.expanded env)

end MojoProse.Stdlib

import PeerShare.Text.Numeral

/-
  Scalars in YAML text.

  A scalar is plain or quoted and may go on over several
  lines.  White space at the end of a line and at the start
  of the next is dropped; one line break is read as a space,
  and of several breaks all but the first are kept.

  Key definitions include:
    * `Yaml.Cursor`
    * `Yaml.normalizeBreaks`
    * `Yaml.Gap`
    * `Yaml.readPlain?`
    * `Yaml.readSingleQuoted?`
    * `Yaml.readDoubleQuoted?`
-/

------------------------------------------------------------
-- Letters and Places
------------------------------------------------------------

namespace PeerShare

namespace Yaml

/- Whether a letter ends a line. -/
def isBreak
    (c : Char) : Bool :=
  c == '\n' || c.toNat == 0x2028 || c.toNat == 0x2029

/- Whether a letter is a space or a tab. -/
def isBlank
    (c : Char) : Bool :=
  c == ' ' || c == '\t'

/- Whether a text starts with white space, or is at its end. -/
def startsBlank : List Char → Bool
  | [] => true
  | c :: _ => isBlank c || isBreak c

/- Write every common line break in the same way. -/
def normalizeBreaks : List Char → List Char
  | [] => []
  | '\r' :: '\n' :: cs => '\n' :: normalizeBreaks cs
  | c :: cs =>
      (if c == '\r' || c.toNat == 0x85 then '\n' else c) ::
        normalizeBreaks cs

/- Whether a letter may stand in YAML text. -/
def isAllowed
    (c : Char) : Bool :=
  let n := c.toNat
  n == 0x09 || n == 0x0A || n == 0x0D ||
    (0x20 ≤ n && n ≤ 0x7E) || n == 0x85 ||
    (0xA0 ≤ n && n ≤ 0xD7FF) ||
    (0xE000 ≤ n && n ≤ 0xFFFD) || 0x10000 ≤ n

/- A place in a text: what follows, and where it stands. -/
structure Cursor where
  rest : List Char
  line : Nat
  column : Nat
  index : Nat

namespace Cursor

/- The start of a text. -/
def start
    (text : List Char) : Cursor where
  rest := text
  line := 0
  column := 0
  index := 0

/- The place behind a letter, with what follows it. -/
def past
    (p : Cursor)
    (c : Char)
    (rest : List Char) : Cursor :=
  if isBreak c then
    { rest, line := p.line + 1, column := 0,
      index := p.index + 1 }
  else
    { p with
      rest
      column := p.column + 1
      index := p.index + 1 }

/- The place behind the next letter. -/
def skip
    (p : Cursor) : Cursor :=
  match p.rest with
  | [] => p
  | c :: rest => p.past c rest

/- The place behind a number of letters. -/
def skipMany
    (p : Cursor) : Nat → Cursor
  | 0 => p
  | n + 1 => p.skip.skipMany n

/-
  Whether a line starts here with three letters `mark` that
  stand alone.
-/
def isMark
    (p : Cursor)
    (mark : Char) : Bool :=
  p.column == 0 &&
    match p.rest with
    | a :: b :: c :: rest =>
        a == mark && b == mark && c == mark && startsBlank rest
    | _ => false

/- Whether a line starts here that ends or starts a document. -/
def isDocumentMark
    (p : Cursor) : Bool :=
  p.isMark '-' || p.isMark '.'

end Cursor

end Yaml

end PeerShare

------------------------------------------------------------
-- Gaps
------------------------------------------------------------

namespace PeerShare

namespace Yaml

/-
  White space inside a scalar: the blanks before the first
  line break, that break, and the breaks after it.  Letters
  stand in reverse order.
-/
structure Gap where
  blanks : List Char
  first : Option (List Char)
  later : List Char

namespace Gap

/- No white space. -/
def none : Gap where
  blanks := []
  first := Option.none
  later := []

/- Whether the gap has a line break. -/
def hasBreak
    (g : Gap) : Bool :=
  g.first.isSome

/- Whether the gap is nothing at all. -/
def isNone
    (g : Gap) : Bool :=
  g.blanks.isEmpty && g.first.isNone

/- Add a blank.  Blanks after a break are dropped. -/
def addBlank
    (g : Gap)
    (c : Char) : Gap :=
  if g.hasBreak then g else { g with blanks := c :: g.blanks }

/- Add a line break. -/
def addBreak
    (g : Gap)
    (c : Char) : Gap :=
  match g.first with
  | Option.none => { g with blanks := [], first := some [c] }
  | some _ => { g with later := c :: g.later }

/-
  Put what the gap stands for behind letters in reverse
  order.
-/
def onto
    (g : Gap)
    (text : List Char) : List Char :=
  match g.first with
  | Option.none => g.blanks ++ text
  | some ['\n'] =>
      if g.later.isEmpty then ' ' :: text else g.later ++ text
  | some first => g.later ++ first ++ text

end Gap

end Yaml

end PeerShare

------------------------------------------------------------
-- Plain Scalars
------------------------------------------------------------

namespace PeerShare

namespace Yaml

/- A scalar that was read, and what follows it. -/
structure ScalarResult where
  text : String
  /- Whether white space with a line break follows. -/
  endsLine : Bool
  cursor : Cursor

/- Whether a letter sets off parts of a flow collection. -/
def isFlowIndicator
    (c : Char) : Bool :=
  c == ',' || c == '[' || c == ']' || c == '{' || c == '}'

/- Whether a plain scalar ends before a letter. -/
def endsPlain
    (inFlow : Bool)
    (c : Char)
    (rest : List Char) : Bool :=
  (c == ':' && startsBlank rest) ||
    (inFlow && isFlowIndicator c)

/- Whether a colon stands where none may stand. -/
def isBadColon
    (inFlow : Bool)
    (c : Char)
    (rest : List Char) : Bool :=
  inFlow && c == ':' &&
    match rest with
    | [] => false
    | next :: _ => isFlowIndicator next || next == '?'

/-
  Read on in a plain scalar.  The letters read so far stand
  in reverse order, and `gap` is the white space behind
  them.  In a block a line that is not indented to `indent`
  ends the scalar.
-/
def readPlainFrom
    (inFlow : Bool)
    (indent : Nat) :
    List Char →
    Cursor →
    (text : List Char) →
    Gap →
    Option ScalarResult
  | [], p, text, gap =>
      some ⟨String.ofList text.reverse, gap.hasBreak, p⟩
  | c :: rest, p, text, gap =>
      let next := p.past c rest
      if isBlank c then
        if gap.hasBreak && p.column < indent && c == '\t' then
          none
        else
          readPlainFrom inFlow indent rest next text
            (gap.addBlank c)
      else if isBreak c then
        readPlainFrom inFlow indent rest next text
          (gap.addBreak c)
      else
        let isOver :=
          !gap.isNone &&
            ((!inFlow && p.column < indent) ||
              p.isDocumentMark || c == '#')
        if isOver || endsPlain inFlow c rest then
          some ⟨String.ofList text.reverse, gap.hasBreak, p⟩
        else if isBadColon inFlow c rest then none
        else
          readPlainFrom inFlow indent rest next
            (c :: gap.onto text) Gap.none

/- Read a plain scalar. -/
def readPlain?
    (inFlow : Bool)
    (indent : Nat)
    (p : Cursor) : Option ScalarResult :=
  readPlainFrom inFlow indent p.rest p [] Gap.none

end Yaml

end PeerShare

------------------------------------------------------------
-- Quoted Scalars
------------------------------------------------------------

namespace PeerShare

namespace Yaml

/-
  Read on in a scalar between single quotes, in which two
  quotes stand for one.
-/
def readSingleFrom :
    List Char →
    Cursor →
    (text : List Char) →
    Gap →
    Option ScalarResult
  | [], _, _, _ => none
  | '\'' :: '\'' :: rest, p, text, gap =>
      let next := (p.past '\'' ('\'' :: rest)).past '\'' rest
      readSingleFrom rest next ('\'' :: gap.onto text) Gap.none
  | c :: rest, p, text, gap =>
      let next := p.past c rest
      if isBlank c then
        readSingleFrom rest next text (gap.addBlank c)
      else if isBreak c then
        readSingleFrom rest next text (gap.addBreak c)
      else if p.isDocumentMark then none
      else if c == '\'' then
        let text := gap.onto text
        some ⟨String.ofList text.reverse, false, next⟩
      else
        readSingleFrom rest next (c :: gap.onto text) Gap.none

/- Read a scalar behind its opening single quote. -/
def readSingleQuoted?
    (p : Cursor) : Option ScalarResult :=
  readSingleFrom p.rest p [] Gap.none

/- The letter that a letter behind a backslash stands for. -/
def escaped?
    (c : Char) : Option Char :=
  match c with
  | '0' => some (Char.ofNat 0)
  | 'a' => some (Char.ofNat 7)
  | 'b' => some (Char.ofNat 8)
  | 't' => some '\t'
  | '\t' => some '\t'
  | 'n' => some '\n'
  | 'v' => some (Char.ofNat 11)
  | 'f' => some (Char.ofNat 12)
  | 'r' => some '\r'
  | 'e' => some (Char.ofNat 27)
  | ' ' => some ' '
  | '"' => some '"'
  | '/' => some '/'
  | '\\' => some '\\'
  | 'N' => some (Char.ofNat 0x85)
  | '_' => some (Char.ofNat 0xA0)
  | 'L' => some (Char.ofNat 0x2028)
  | 'P' => some (Char.ofNat 0x2029)
  | _ => none

/- The number of digits behind a backslash and a letter. -/
def escapeDigits?
    (c : Char) : Option Nat :=
  match c with
  | 'x' => some 2
  | 'u' => some 4
  | 'U' => some 8
  | _ => none

/- The letter with a number, if there is one. -/
def charOfNumber?
    (n : Nat) : Option Char :=
  if (0xD800 ≤ n ∧ n ≤ 0xDFFF) ∨ 0x10FFFF < n then none
  else some (Char.ofNat n)

/- What the next letter between double quotes means. -/
inductive QuoteMode where
  /- It is part of the text. -/
  | text
  /- It stands behind a backslash. -/
  | escape
  /- It is one of some digits still to come. -/
  | digits (more value : Nat)

/- Read on in a scalar between double quotes. -/
def readDoubleFrom :
    List Char →
    Cursor →
    QuoteMode →
    (text : List Char) →
    Gap →
    Option ScalarResult
  | [], _, _, _, _ => none
  | c :: rest, p, .text, text, gap =>
      let next := p.past c rest
      if isBlank c then
        readDoubleFrom rest next .text text (gap.addBlank c)
      else if isBreak c then
        readDoubleFrom rest next .text text (gap.addBreak c)
      else if p.isDocumentMark then none
      else if c == '"' then
        let text := gap.onto text
        some ⟨String.ofList text.reverse, false, next⟩
      else if c == '\\' then
        readDoubleFrom rest next .escape (gap.onto text)
          Gap.none
      else
        readDoubleFrom rest next .text (c :: gap.onto text)
          Gap.none
  | c :: rest, p, .escape, text, gap =>
      let next := p.past c rest
      if isBreak c then
        readDoubleFrom rest next .text text
          { blanks := [], first := some [], later := [] }
      else
        match escaped? c, escapeDigits? c with
        | some letter, _ =>
            readDoubleFrom rest next .text (letter :: text) gap
        | none, some more =>
            readDoubleFrom rest next (.digits more 0) text gap
        | none, none => none
  | c :: rest, p, .digits more value, text, gap =>
      let next := p.past c rest
      match Text.digitValue? 16 c with
      | none => none
      | some digit =>
          let value := value * 16 + digit
          if 1 < more then
            readDoubleFrom rest next (.digits (more - 1) value)
              text gap
          else
            match charOfNumber? value with
            | none => none
            | some letter =>
                readDoubleFrom rest next .text (letter :: text)
                  gap

/- Read a scalar behind its opening double quote. -/
def readDoubleQuoted?
    (p : Cursor) : Option ScalarResult :=
  readDoubleFrom p.rest p .text [] Gap.none

end Yaml

end PeerShare

import PeerShare.Yaml.Scalar

/-
  YAML text as tokens.

  Outside of brackets the nesting of collections is given by
  indentation, and the tokens that open and close such
  collections are added where the indentation changes.  A
  key of a mapping is known only by the colon behind it: the
  place where a key may have started is kept, and the tokens
  for it are put there later.

  Key definitions include:
    * `Yaml.Token`
    * `Yaml.Lexer`
    * `Yaml.Lexer.readToken`
    * `Yaml.tokens?`
-/

------------------------------------------------------------
-- Tokens
------------------------------------------------------------

namespace PeerShare

namespace Yaml

/- The tokens of YAML text. -/
inductive Token where
  | documentStart
  | documentEnd
  | blockSequenceStart
  | blockMappingStart
  | blockEnd
  | flowSequenceStart
  | flowSequenceEnd
  | flowMappingStart
  | flowMappingEnd
  | blockEntry
  | flowEntry
  | key
  | value
  | scalar (isPlain : Bool) (text : String)
  deriving DecidableEq

/-
  A place where a key may have started: the number of tokens
  before it, and where it stands.  At the indentation of a
  mapping nothing but a key may start.
-/
structure KeyPlace where
  isRequired : Bool
  tokenNumber : Nat
  line : Nat
  column : Nat
  index : Nat

/-
  The state of reading tokens.

  `indents` are the indentations of the open collections,
  the innermost first, and `keys` has for every open bracket
  and for the text around them the place where a key may
  have started.
-/
structure Lexer where
  cursor : Cursor
  tokens : Array Token
  indents : List Nat
  keys : List (Option KeyPlace)
  allowsKey : Bool

namespace Lexer

/- The start of a text. -/
def start
    (text : List Char) : Lexer where
  cursor := Cursor.start text
  tokens := #[]
  indents := []
  keys := [none]
  allowsKey := true

/- Whether a bracket is open. -/
def inFlow
    (s : Lexer) : Bool :=
  1 < s.keys.length

/- Add a token. -/
def emit
    (s : Lexer)
    (token : Token) : Lexer :=
  { s with tokens := s.tokens.push token }

/- Put a token behind the first `number` tokens. -/
def emitAt
    (s : Lexer)
    (number : Nat)
    (token : Token) : Lexer :=
  { s with
    tokens := s.tokens.insertIdxIfInBounds number token }

/- Set whether a key may start next. -/
def allow
    (s : Lexer)
    (allowsKey : Bool) : Lexer :=
  { s with allowsKey }

/- Go past some letters. -/
def skipMany
    (s : Lexer)
    (n : Nat) : Lexer :=
  { s with cursor := s.cursor.skipMany n }

end Lexer

end Yaml

end PeerShare

------------------------------------------------------------
-- White Space
------------------------------------------------------------

namespace PeerShare

namespace Yaml

namespace Lexer

/-
  Go past white space and comments.  Outside of brackets a
  new line allows a key to start.  Where a key may start,
  tabs are not white space.
-/
def skipSpaceFrom
    (isFlow : Bool) :
    List Char →
    Cursor →
    (inComment allowsKey : Bool) →
    Cursor × Bool
  | [], p, _, allowsKey => (p, allowsKey)
  | c :: rest, p, inComment, allowsKey =>
      let next := p.past c rest
      if isBreak c then
        skipSpaceFrom isFlow rest next false (allowsKey || !isFlow)
      else if inComment then
        skipSpaceFrom isFlow rest next true allowsKey
      else if
          c == ' ' || (c == '\t' && (isFlow || !allowsKey)) ||
            (c.toNat == 0xFEFF && p.index == 0)
        then skipSpaceFrom isFlow rest next false allowsKey
      else if c == '#' then
        skipSpaceFrom isFlow rest next true allowsKey
      else (p, allowsKey)

/- Go to the start of the next token. -/
def skipSpace
    (s : Lexer) : Lexer :=
  let (cursor, allowsKey) :=
    skipSpaceFrom s.inFlow s.cursor.rest s.cursor false
      s.allowsKey
  { s with cursor, allowsKey }

end Lexer

end Yaml

end PeerShare

------------------------------------------------------------
-- Keys and Indentation
------------------------------------------------------------

namespace PeerShare

namespace Yaml

namespace Lexer

/- The number of letters in the longest key. -/
def maxKey : Nat :=
  1024

/-
  Whether a key can no longer start at a place, because the
  key would be too long or go on over several lines.
-/
def isStale
    (p : Cursor)
    (k : KeyPlace) : Bool :=
  k.line < p.line || k.index + maxKey < p.index

/-
  Give up the places where no key can start any more.  A
  place where a key is required cannot be given up.
-/
def dropStale
    (s : Lexer) : Option Lexer :=
  let isBad :=
    s.keys.any fun key =>
      match key with
      | none => false
      | some k => isStale s.cursor k && k.isRequired
  if isBad then none
  else
    some
      { s with
        keys :=
          s.keys.map fun key =>
            match key with
            | none => none
            | some k =>
                if isStale s.cursor k then none else some k }

/- Give up the place where a key may have started. -/
def dropKey
    (s : Lexer) : Option Lexer :=
  match s.keys with
  | some k :: keys =>
      if k.isRequired then none
      else some { s with keys := none :: keys }
  | _ => some s

/- Note that a key may start here. -/
def saveKey
    (s : Lexer) : Option Lexer :=
  if s.allowsKey then
    match s.dropKey with
    | none => none
    | some s =>
        let p := s.cursor
        let isRequired :=
          !s.inFlow && s.indents.head? == some p.column
        let k : KeyPlace :=
          { isRequired
            tokenNumber := s.tokens.size
            line := p.line
            column := p.column
            index := p.index }
        some { s with keys := some k :: s.keys.drop 1 }
  else some s

/- Whether a column is further in than the open collections. -/
def isDeeper
    (indents : List Nat)
    (column : Nat) : Bool :=
  match indents with
  | [] => true
  | indent :: _ => indent < column

/-
  Open a collection at a column, unless one is open there.
  Its token is put behind the first `number` tokens.
-/
def openBlock
    (s : Lexer)
    (column number : Nat)
    (token : Token) : Lexer :=
  if s.inFlow || !isDeeper s.indents column then s
  else
    { s with indents := column :: s.indents }.emitAt number token

/- Close the collections that are further in than a column. -/
def closeBlocksFrom
    (column : Nat) :
    (indents : List Nat) →
    Array Token →
    List Nat × Array Token
  | [], tokens => ([], tokens)
  | indent :: indents, tokens =>
      if column < indent then
        closeBlocksFrom column indents (tokens.push .blockEnd)
      else (indent :: indents, tokens)

/- Close the collections that are further in than a column. -/
def closeBlocks
    (s : Lexer)
    (column : Nat) : Lexer :=
  if s.inFlow then s
  else
    let (indents, tokens) :=
      closeBlocksFrom column s.indents s.tokens
    { s with indents, tokens }

/- Close all collections that are open by indentation. -/
def closeAllBlocks
    (s : Lexer) : Lexer :=
  if s.inFlow then s
  else
    { s with
      indents := []
      tokens :=
        s.indents.foldl (fun ts _ => ts.push .blockEnd)
          s.tokens }

end Lexer

end Yaml

end PeerShare

------------------------------------------------------------
-- Single Tokens
------------------------------------------------------------

namespace PeerShare

namespace Yaml

namespace Lexer

/- A mark that starts or ends a document. -/
def readDocumentMark
    (s : Lexer)
    (token : Token) : Option Lexer :=
  (s.closeAllBlocks.dropKey).map fun s =>
    ((s.allow false).emit token).skipMany 3

/- An opening bracket. -/
def readOpening
    (s : Lexer)
    (token : Token) : Option Lexer :=
  s.saveKey.map fun s =>
    let s := { s with keys := none :: s.keys }
    ((s.allow true).emit token).skipMany 1

/- A closing bracket. -/
def readClosing
    (s : Lexer)
    (token : Token) : Option Lexer :=
  s.dropKey.map fun s =>
    let s :=
      if s.inFlow then { s with keys := s.keys.drop 1 } else s
    ((s.allow false).emit token).skipMany 1

/- A comma between brackets. -/
def readFlowEntry
    (s : Lexer) : Option Lexer :=
  s.dropKey.map fun s =>
    ((s.allow true).emit .flowEntry).skipMany 1

/- A dash before an item. -/
def readBlockEntry
    (s : Lexer) : Option Lexer :=
  if !s.inFlow && !s.allowsKey then none
  else
    let s :=
      s.openBlock s.cursor.column s.tokens.size
        .blockSequenceStart
    s.dropKey.map fun s =>
      ((s.allow true).emit .blockEntry).skipMany 1

/- A question mark before a key. -/
def readKey
    (s : Lexer) : Option Lexer :=
  if !s.inFlow && !s.allowsKey then none
  else
    let s :=
      s.openBlock s.cursor.column s.tokens.size
        .blockMappingStart
    s.dropKey.map fun s =>
      ((s.allow !s.inFlow).emit .key).skipMany 1

/- A colon before a value. -/
def readValue
    (s : Lexer) : Option Lexer :=
  match s.keys with
  | some k :: keys =>
      let s := { s with keys := none :: keys }
      let s := s.emitAt k.tokenNumber .key
      let s := s.openBlock k.column k.tokenNumber .blockMappingStart
      some (((s.allow false).emit .value).skipMany 1)
  | _ =>
      if !s.inFlow && !s.allowsKey then none
      else
        let s :=
          s.openBlock s.cursor.column s.tokens.size
            .blockMappingStart
        some (((s.allow !s.inFlow).emit .value).skipMany 1)

/- A scalar. -/
def readScalar
    (s : Lexer)
    (isPlain : Bool)
    (read : Cursor → Option ScalarResult) : Option Lexer :=
  match s.saveKey with
  | none => none
  | some s =>
      match read s.cursor with
      | none => none
      | some r =>
          some
            ({ s with
                cursor := r.cursor
                allowsKey := r.endsLine }.emit
              (.scalar isPlain r.text))

/- The least indentation of the next lines of a scalar. -/
def scalarIndent
    (s : Lexer) : Nat :=
  match s.indents with
  | [] => 0
  | indent :: _ => indent + 1

/- Whether a plain scalar can start with a letter. -/
def startsPlain
    (isFlow : Bool)
    (c : Char)
    (rest : List Char) : Bool :=
  let isIndicator :=
    "-?:,[]\x7b\x7d#&*!|>'\"%@".toList.contains c ||
      c.toNat == 0x60 || isBlank c || isBreak c
  !isIndicator ||
    (c == '-' &&
      match rest with
      | [] => true
      | next :: _ => !isBlank next) ||
    (!isFlow && (c == '?' || c == ':') && !startsBlank rest)

/- The token that starts with a letter. -/
def readToken
    (s : Lexer)
    (c : Char)
    (rest : List Char) : Option Lexer :=
  if s.cursor.column == 0 && c == '%' then none
  else if s.cursor.isMark '-' then
    s.readDocumentMark .documentStart
  else if s.cursor.isMark '.' then
    s.readDocumentMark .documentEnd
  else if c == '[' then s.readOpening .flowSequenceStart
  else if c == '{' then s.readOpening .flowMappingStart
  else if c == ']' then s.readClosing .flowSequenceEnd
  else if c == '}' then s.readClosing .flowMappingEnd
  else if c == ',' then s.readFlowEntry
  else if c == '-' && startsBlank rest then s.readBlockEntry
  else if c == '?' && (s.inFlow || startsBlank rest) then
    s.readKey
  else if c == ':' && (s.inFlow || startsBlank rest) then
    s.readValue
  else if c == '\'' then
    s.readScalar false fun p => readSingleQuoted? p.skip
  else if c == '"' then
    s.readScalar false fun p => readDoubleQuoted? p.skip
  else if startsPlain s.inFlow c rest then
    s.readScalar true (readPlain? s.inFlow s.scalarIndent)
  else none

end Lexer

end Yaml

end PeerShare

------------------------------------------------------------
-- All Tokens
------------------------------------------------------------

namespace PeerShare

namespace Yaml

namespace Lexer

/-
  Read the tokens of a text, at most `fuel` of them.  Each
  of them takes at least one letter.
-/
def readAll :
    (fuel : Nat) →
    Lexer →
    Option Lexer
  | 0, _ => none
  | fuel + 1, s =>
      match s.skipSpace.dropStale with
      | none => none
      | some s =>
          let s := s.closeBlocks s.cursor.column
          match s.cursor.rest with
          | [] => s.closeAllBlocks.dropKey
          | c :: rest =>
              match s.readToken c rest with
              | none => none
              | some s => readAll fuel s

end Lexer

/- The tokens of a text, if it is well formed so far. -/
def tokens?
    (text : List Char) : Option (List Token) :=
  if text.all isAllowed then
    let text := normalizeBreaks text
    (Lexer.readAll (text.length + 1) (Lexer.start text)).map
      fun s => s.tokens.toList
  else none

end Yaml

end PeerShare

import PeerShare.Yaml.Token

/-
  YAML text as a tree of values.

  A value that is left out is an empty plain scalar, and so
  is a text without values.  A text has one document.

  Key definitions include:
    * `Yaml.Value`
    * `Yaml.Value.parse?`
-/

------------------------------------------------------------
-- Values
------------------------------------------------------------

namespace PeerShare

namespace Yaml

/- A value: a scalar, a sequence or a mapping. -/
inductive Value where
  | scalar (isPlain : Bool) (text : String)
  | sequence (items : List Value)
  | mapping (entries : List (Value × Value))

/- A value that is left out. -/
def Value.omitted : Value :=
  .scalar true ""

/-
  What was read from the front of some tokens, and the
  tokens behind it.
-/
abbrev Reading
    (α : Type) :=
  Option (α × List Token)

/-
  Whether a value is left out before the next token, in a
  collection given by indentation.
-/
def endsBlockValue : List Token → Bool
  | .key :: _ => true
  | .value :: _ => true
  | .blockEnd :: _ => true
  | _ => false

/- Whether an item is left out before the next token. -/
def endsBlockItem : List Token → Bool
  | .blockEntry :: _ => true
  | .blockEnd :: _ => true
  | _ => false

/-
  Whether a value is left out before the next token, between
  square brackets.
-/
def endsSequenceValue : List Token → Bool
  | .flowEntry :: _ => true
  | .flowSequenceEnd :: _ => true
  | _ => false

/-
  Whether a value is left out before the next token, between
  curly brackets.
-/
def endsMappingValue : List Token → Bool
  | .flowEntry :: _ => true
  | .flowMappingEnd :: _ => true
  | _ => false

/- Whether the next token comes before a value. -/
def startsValue : List Token → Bool
  | .value :: _ => true
  | _ => false

end Yaml

end PeerShare

------------------------------------------------------------
-- Collections
------------------------------------------------------------

namespace PeerShare

namespace Yaml

/-
  How a value is read where it stands, and where it may be
  left out.
-/
def readUnless
    (isOmitted : List Token → Bool)
    (read : List Token → Reading Value)
    (ts : List Token) : Reading Value :=
  if isOmitted ts then some (Value.omitted, ts) else read ts

/- Read the value behind a colon, if there is a colon. -/
def readAfterColon
    (isOmitted : List Token → Bool)
    (read : List Token → Reading Value) :
    List Token → Reading Value
  | .value :: ts => readUnless isOmitted read ts
  | ts => some (Value.omitted, ts)

/- What a value stands in. -/
inductive Context where
  /- In brackets. -/
  | flow
  /- In a collection that is given by indentation. -/
  | block
  /-
    In a mapping that is given by indentation, where items
    need not be further in than the key.
  -/
  | entry
  deriving DecidableEq

mutual

/- Read a value. -/
def readValue :
    (fuel : Nat) →
    Context →
    List Token →
    Reading Value
  | 0, _, _ => none
  | fuel + 1, context, ts =>
      match ts with
      | .scalar isPlain text :: ts =>
          some (.scalar isPlain text, ts)
      | .flowSequenceStart :: ts =>
          readSequence fuel true [] ts
      | .flowMappingStart :: ts =>
          readMapping fuel true [] ts
      | .blockSequenceStart :: ts =>
          if context = .flow then none
          else readItems fuel true [] ts
      | .blockMappingStart :: ts =>
          if context = .flow then none
          else readEntries fuel [] ts
      | .blockEntry :: _ =>
          if context = .entry then readItems fuel false [] ts
          else none
      | _ => none

/-
  Read items behind dashes.  Items that are not further in
  than the key before them have no closing token.
-/
def readItems :
    (fuel : Nat) →
    (isClosed : Bool) →
    List Value →
    List Token →
    Reading Value
  | 0, _, _, _ => none
  | fuel + 1, isClosed, items, ts =>
      match ts with
      | .blockEntry :: ts =>
          let isOmitted :=
            if isClosed then endsBlockItem
            else fun ts => endsBlockItem ts || endsBlockValue ts
          match
              readUnless isOmitted (readValue fuel .block) ts with
          | none => none
          | some (item, ts) =>
              readItems fuel isClosed (item :: items) ts
      | .blockEnd :: rest =>
          if isClosed then some (.sequence items.reverse, rest)
          else some (.sequence items.reverse, ts)
      | _ =>
          if isClosed then none
          else some (.sequence items.reverse, ts)

/-
  Read the keys and values of a mapping that is given by
  indentation.
-/
def readEntries :
    (fuel : Nat) →
    List (Value × Value) →
    List Token →
    Reading Value
  | 0, _, _ => none
  | fuel + 1, entries, ts =>
      match ts with
      | .blockEnd :: ts => some (.mapping entries.reverse, ts)
      | .key :: ts =>
          match
              readUnless endsBlockValue (readValue fuel .entry)
                ts with
          | none => none
          | some (key, ts) =>
              match
                  readAfterColon endsBlockValue
                    (readValue fuel .entry) ts with
              | none => none
              | some (value, ts) =>
                  readEntries fuel ((key, value) :: entries) ts
      | _ => none

/-
  Read values between square brackets.  A key and a value
  there are a mapping of their own.
-/
def readSequence :
    (fuel : Nat) →
    (isFirst : Bool) →
    List Value →
    List Token →
    Reading Value
  | 0, _, _, _ => none
  | fuel + 1, isFirst, items, ts =>
      match isFirst, ts with
      | _, .flowSequenceEnd :: ts =>
          some (.sequence items.reverse, ts)
      | false, .flowEntry :: .flowSequenceEnd :: ts =>
          some (.sequence items.reverse, ts)
      | false, .flowEntry :: ts =>
          match readSequenceItem fuel ts with
          | none => none
          | some (item, ts) =>
              readSequence fuel false (item :: items) ts
      | true, ts =>
          match readSequenceItem fuel ts with
          | none => none
          | some (item, ts) =>
              readSequence fuel false (item :: items) ts
      | _, _ => none

/- Read one item between square brackets. -/
def readSequenceItem :
    (fuel : Nat) →
    List Token →
    Reading Value
  | 0, _ => none
  | fuel + 1, ts =>
      match ts with
      | .key :: ts =>
          let isOmitted := fun ts =>
            startsValue ts || endsSequenceValue ts
          match readUnless isOmitted (readValue fuel .flow) ts with
          | none => none
          | some (key, ts) =>
              match
                  readAfterColon endsSequenceValue
                    (readValue fuel .flow) ts with
              | none => none
              | some (value, ts) =>
                  some (.mapping [(key, value)], ts)
      | ts => readValue fuel .flow ts

/- Read keys and values between curly brackets. -/
def readMapping :
    (fuel : Nat) →
    (isFirst : Bool) →
    List (Value × Value) →
    List Token →
    Reading Value
  | 0, _, _, _ => none
  | fuel + 1, isFirst, entries, ts =>
      match isFirst, ts with
      | _, .flowMappingEnd :: ts =>
          some (.mapping entries.reverse, ts)
      | false, .flowEntry :: .flowMappingEnd :: ts =>
          some (.mapping entries.reverse, ts)
      | false, .flowEntry :: ts =>
          match readMappingEntry fuel ts with
          | none => none
          | some (entry, ts) =>
              readMapping fuel false (entry :: entries) ts
      | true, ts =>
          match readMappingEntry fuel ts with
          | none => none
          | some (entry, ts) =>
              readMapping fuel false (entry :: entries) ts
      | _, _ => none

/- Read a key and a value between curly brackets. -/
def readMappingEntry :
    (fuel : Nat) →
    List Token →
    Reading (Value × Value)
  | 0, _ => none
  | fuel + 1, ts =>
      match ts with
      | .key :: ts =>
          let isOmitted := fun ts =>
            startsValue ts || endsMappingValue ts
          match readUnless isOmitted (readValue fuel .flow) ts with
          | none => none
          | some (key, ts) =>
              match
                  readAfterColon endsMappingValue
                    (readValue fuel .flow) ts with
              | none => none
              | some (value, ts) => some ((key, value), ts)
      | ts =>
          match readValue fuel .flow ts with
          | none => none
          | some (key, ts) => some ((key, Value.omitted), ts)

end

end Yaml

end PeerShare

------------------------------------------------------------
-- Documents
------------------------------------------------------------

namespace PeerShare

namespace Yaml

/- Whether a document is at its end before the next token. -/
def endsDocument : List Token → Bool
  | [] => true
  | .documentStart :: _ => true
  | .documentEnd :: _ => true
  | _ => false

/- Read the first document. -/
def readDocument
    (ts : List Token) : Reading Value :=
  let read := readValue (4 * ts.length + 4) .block
  match ts with
  | [] => some (Value.omitted, [])
  | .documentStart :: ts => readUnless endsDocument read ts
  | ts => read ts

/-
  The value of a text, if it is well formed and has no
  second document.
-/
def Value.parse?
    (text : String) : Option Value :=
  match tokens? text.toList with
  | none => none
  | some ts =>
      match readDocument ts with
      | none => none
      | some (value, ts) =>
          if ts.all (· == .documentEnd) then some value else none

end Yaml

end PeerShare

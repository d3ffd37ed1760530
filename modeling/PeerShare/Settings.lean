import PeerShare.Disk
import PeerShare.Text.Utf8
import PeerShare.Yaml.Value

/-
  The settings of a tracker and of a node.

  Settings are read from YAML text.  Whatever the text does
  not mention has a default, and so has everything when
  there is no text or no file.

  Key definitions include:
    * `Settings`
    * `Settings.parse?`
    * `Settings.load`
-/

------------------------------------------------------------
-- Settings
------------------------------------------------------------

namespace PeerShare

/- Where a tracker listens, and where nodes find it. -/
structure TrackerSettings where
  host : String
  port : UInt16
  deriving DecidableEq

/- The port, directory and identity of a node. -/
structure NodeSettings where
  port : UInt16
  directory : String
  identity : Option String
  deriving DecidableEq

/- All settings. -/
structure Settings where
  tracker : TrackerSettings
  node : NodeSettings
  deriving DecidableEq

/- The settings of a tracker that nothing is said about. -/
def TrackerSettings.default : TrackerSettings where
  host := "127.0.0.1"
  port := 9090

/- The settings of a node that nothing is said about. -/
def NodeSettings.default : NodeSettings where
  port := 9091
  directory := "./downloads"
  identity := none

/- The settings when nothing is said. -/
def Settings.default : Settings where
  tracker := TrackerSettings.default
  node := NodeSettings.default

/- The host and port of a tracker. -/
def TrackerSettings.address
    (s : TrackerSettings) : String :=
  s.host ++ ":" ++ toString s.port.toNat

end PeerShare

------------------------------------------------------------
-- Scalars
------------------------------------------------------------

namespace PeerShare

namespace Settings

/- A numeral behind one of the marks `0x`, `0o` and `0b`. -/
def readMarked?
    (cs : List Char) : Option Nat :=
  match cs with
  | '0' :: 'x' :: digits => Text.readNumeral? 16 digits
  | '0' :: 'o' :: digits => Text.readNumeral? 8 digits
  | '0' :: 'b' :: digits => Text.readNumeral? 2 digits
  | _ => none

/- Whether a numeral starts with a zero that means nothing. -/
def hasIdleZero
    (cs : List Char) : Bool :=
  1 < cs.length && cs.head? == some '0'

/-
  A number, with a plus sign before it or not, and in one of
  the bases sixteen, eight, two and ten.
-/
def readNumber?
    (text : String) : Option Nat :=
  let digits :=
    match text.toList with
    | '+' :: cs => cs
    | cs => cs
  match readMarked? digits with
  | some n => some n
  | none =>
      if hasIdleZero digits then none
      else Text.readNumeral? 10 digits

/- A port: a number in a plain scalar. -/
def readPort? : Yaml.Value → Option UInt16
  | .scalar true text =>
      match readNumber? text with
      | none => none
      | some n =>
          if n < 65536 then some (UInt16.ofNat n) else none
  | _ => none

/- A text: a scalar of any kind. -/
def readText? : Yaml.Value → Option String
  | .scalar _ text => some text
  | _ => none

/- The plain scalars that stand for nothing. -/
def absences : List String :=
  ["", "null", "Null", "NULL", "~"]

/- A text or nothing. -/
def readOptionalText? :
    Yaml.Value → Option (Option String)
  | .scalar true text =>
      if absences.contains text then some none
      else some (some text)
  | .scalar false text => some (some text)
  | _ => none

end Settings

end PeerShare

------------------------------------------------------------
-- Mappings
------------------------------------------------------------

namespace PeerShare

namespace Settings

/-
  The entries of a mapping, with their keys as texts.  What
  is left out is a mapping without entries.
-/
def entries? :
    Yaml.Value → Option (List (String × Yaml.Value))
  | .mapping entries =>
      entries.mapM fun (key, value) =>
        (readText? key).map fun key => (key, value)
  | .scalar true "" => some []
  | _ => none

/-
  The value of a key, or a default without the key.  A key
  must not be given twice.
-/
def field?
    {α : Type}
    (entries : List (String × Yaml.Value))
    (key : String)
    (read : Yaml.Value → Option α)
    (default : α) : Option α :=
  match entries.filter fun entry => entry.1 == key with
  | [] => some default
  | [(_, value)] => read value
  | _ => none

/- The settings of a tracker. -/
def readTracker?
    (value : Yaml.Value) : Option TrackerSettings :=
  let d := TrackerSettings.default
  match entries? value with
  | none => none
  | some es =>
      match field? es "host" readText? d.host,
        field? es "port" readPort? d.port with
      | some host, some port => some { host, port }
      | _, _ => none

/- The settings of a node. -/
def readNode?
    (value : Yaml.Value) : Option NodeSettings :=
  let d := NodeSettings.default
  match entries? value with
  | none => none
  | some es =>
      match field? es "port" readPort? d.port,
        field? es "download_dir" readText? d.directory,
        field? es "identity" readOptionalText? d.identity with
      | some port, some directory, some identity =>
          some { port, directory, identity }
      | _, _, _ => none

/- The settings in a value. -/
def ofValue?
    (value : Yaml.Value) : Option Settings :=
  match entries? value with
  | none => none
  | some es =>
      match
          field? es "tracker" readTracker?
            TrackerSettings.default,
        field? es "node" readNode? NodeSettings.default with
      | some tracker, some node => some { tracker, node }
      | _, _ => none

end Settings

end PeerShare

------------------------------------------------------------
-- Reading Settings
------------------------------------------------------------

namespace PeerShare

namespace Settings

/- Whether a letter is white space. -/
def isSpace
    (c : Char) : Bool :=
  let n := c.toNat
  (9 ≤ n && n ≤ 13) || n == 0x20 || n == 0x85 || n == 0xA0 ||
    n == 0x1680 || (0x2000 ≤ n && n ≤ 0x200A) ||
    n == 0x2028 || n == 0x2029 || n == 0x202F ||
    n == 0x205F || n == 0x3000

/- The settings in a text, if it is well formed. -/
def parse?
    (text : String) : Option Settings :=
  if text.toList.all isSpace then some default
  else (Yaml.Value.parse? text).bind ofValue?

/- Why settings could not be loaded. -/
inductive LoadError where
  | io (cause : IoFailure)
  | malformed
  deriving DecidableEq

/-
  The settings in the file of a path.  Without a file there
  are the defaults.
-/
def load
    (disk : Disk)
    (path : String) : Except LoadError Settings :=
  match disk.read path with
  | .error .notFound => .ok default
  | .error e => .error (.io e)
  | .ok content =>
      match Utf8.decode content.toBytes with
      | .error _ => .error (.io .invalidData)
      | .ok text =>
          match parse? text with
          | none => .error .malformed
          | some settings => .ok settings

end Settings

end PeerShare

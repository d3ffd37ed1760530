import PeerShare.Text.Utf8
import PeerShare.Wire.Tag

/-
  Why bytes are not a message.

  Key definitions include:
    * `Wire.Field`
    * `Wire.DecodeError`
    * `Wire.DecodeError.message`
-/

namespace PeerShare

namespace Wire

/- The fields of messages. -/
inductive Field where
  | id
  | identity
  | port
  | name
  | size
  | fileHash
  | chunkHashes
  | bitfield
  | kind
  | peers
  | peerIdentity
  | peerPort
  | peerBitfield
  | indices
  | index
  | data
  deriving DecidableEq

/- The name of a field in error messages. -/
def Field.label : Field → String
  | id => "id"
  | identity => "identity"
  | port => "port"
  | name => "name"
  | size => "size"
  | fileHash => "file_hash"
  | chunkHashes => "chunk_hashes"
  | bitfield => "bitfield"
  | kind => "kind"
  | peers => "peers"
  | peerIdentity => "peer.identity"
  | peerPort => "peer.port"
  | peerBitfield => "peer.bitfield"
  | indices => "indices"
  | index => "index"
  | data => "data"

/- The reasons why bytes are not a message. -/
inductive DecodeError where
  /- The bytes end inside a field. -/
  | truncated (field : Field) (missing : Nat)
  /- No message has this tag. -/
  | unknownTag (value : UInt8)
  /- Messages with this tag travel on the other channel. -/
  | wrongChannel (tag : Tag)
  /- A field that should be text is not. -/
  | malformedText (field : Field) (fault : Utf8.Fault)
  /- No request is acknowledged with this byte. -/
  | unknownSuccess (value : UInt8)
  /- Bytes are left over after the last field. -/
  | trailing (count : Nat)
  deriving DecidableEq

/- What is said about a message on the wrong channel. -/
def Channel.describe : Channel → String
  | .tracker => "is a tracker message"
  | .datagram => "is a datagram message"

/- The text of an error. -/
def DecodeError.message : DecodeError → String
  | truncated field missing =>
      "truncated message: expected " ++ toString missing ++
        " more bytes for " ++ field.label
  | unknownTag value =>
      "invalid message id: " ++ toString value.toNat
  | wrongChannel tag =>
      "unexpected message: " ++ tag.name ++ " " ++
        tag.channel.describe
  | malformedText field fault =>
      "invalid field " ++ field.label ++ ": " ++ fault.message
  | unknownSuccess value =>
      "invalid field " ++ Field.kind.label ++
        ": unknown success kind " ++ toString value.toNat
  | trailing count =>
      toString count ++ " trailing bytes after message"

end Wire

end PeerShare

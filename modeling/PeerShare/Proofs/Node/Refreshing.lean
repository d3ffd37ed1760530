import PeerShare.Proofs.Fetch.Reports
import PeerShare.Proofs.Node.Sharing

/-
  What a node makes of an answer about a file that it is
  already fetching.

  The peers in the answer are noted for the transfer of that
  name, whichever file the answer describes.  So the peers
  of the transfer stay as they are just if the answer tells
  of every peer that it lists what is known of it already.

  Key theorems include:
    * `Node.handleMessage_answer_of_fetching`
    * `Node.refresh_harmless_iff`
-/

------------------------------------------------------------
-- Answers about a File That Is Fetched
------------------------------------------------------------

namespace PeerShare

namespace Node

variable {node : Node}
variable {t : Transfer}
variable {file : FileRecord}

/- An answer that was not asked for tells of peers only. -/
theorem handleMessage_answer_of_not_awaiting
    (h : node.downloads.isAwaiting file.name = false)
    (entries : List Wire.PeerEntry)
    (hosts : Hosts)
    (now : Moment) :
    node.handleMessage (.answer file entries) hosts now =
      { node with
        downloads :=
          (node.downloads.applyPeers file.name
            (node.listedPeers entries hosts)).2 } := by
  simp only [handleMessage, handleAnswer, h,
    Bool.false_eq_true, if_false]

/- Only the name of the described file is looked at. -/
theorem handleMessage_answer_of_fetching
    (hGet : node.downloads.transfer? file.name = some t)
    (entries : List Wire.PeerEntry)
    (hosts : Hosts)
    (now : Moment) :
    node.handleMessage (.answer file entries) hosts now =
      { node with
        downloads :=
          node.downloads.set file.name
            (t.applyPeers
              (node.listedPeers entries hosts)) } := by
  have hNot : node.downloads.isAwaiting file.name = false := by
    apply Bool.eq_false_iff.mpr
    intro hAwaiting
    rw [Downloads.transfer?_of_isAwaiting hAwaiting] at hGet
    cases hGet
  rw [handleMessage_answer_of_not_awaiting hNot,
    Downloads.applyPeers, hGet]

/-
  An answer about a file that is being fetched leaves the
  peers of the transfer as they are, or drops the download,
  just if it tells of every peer that it lists what is known
  already.  What file the answer describes is no matter.
-/
theorem refresh_harmless_iff
    (hGet : node.downloads.transfer? file.name = some t)
    (entries : List Wire.PeerEntry)
    (hosts : Hosts)
    (now : Moment) :
    let node' :=
      node.handleMessage (.answer file entries) hosts now
    let peers := node.listedPeers entries hosts
    (node'.downloads.contains file.name = false ∨
        ∃ t',
          node'.downloads.transfer? file.name = some t' ∧
            t'.peers = t.peers ∧ t'.evicted = t.evicted) ↔
      ∀ peer ∈ peers.map Prod.fst, t.Confirms peers peer := by
  intro node' peers
  have hAfter :
      node'.downloads =
        node.downloads.set file.name (t.applyPeers peers) :=
    congrArg Node.downloads
      (handleMessage_answer_of_fetching hGet entries hosts now)
  have hTransfer :
      node'.downloads.transfer? file.name =
        some (t.applyPeers peers) := by
    rw [hAfter, Downloads.transfer?_set, if_pos rfl]
  have hContains :
      node'.downloads.contains file.name = true := by
    rw [hAfter]
    exact Table.contains_iff.mpr
      ⟨_, Table.get?_insert_self _ _ _⟩
  rw [← Transfer.applyPeers_unchanged_iff, hContains]
  simp [hTransfer]

/- A peer on the loopback interface with the first chunk. -/
def firstChunkEntry
    (port : UInt16) : Wire.PeerEntry where
  identity := "127.0.0.1"
  port := port
  bitfield := [128]

/- The small node while it fetches from one peer. -/
def fetchingFromOne : Node :=
  small.run
    [.request "a" 0,
      .receive
        (Wire.Message.answer twoChunks
          [firstChunkEntry 2]).payload noHosts 0]

theorem exists_isReachable_fetchingFromOne :
    ∃ described, fetchingFromOne.IsReachable described := by
  unfold fetchingFromOne
  exact ⟨_, isReachable_small.run _⟩

/- Another file of the same name, of one byte. -/
def oneByte : FileRecord where
  name := "a"
  size := 1
  digest := .ofBytes [1]
  chunkDigests := [Digest.of [7]]

/- A peer that is known with its chunk is listed again. -/
theorem refresh_harmless_iff_of_known_peer :
    let peers :=
      fetchingFromOne.listedPeers [firstChunkEntry 2] noHosts
    peers.map Prod.fst = [⟨.loopback, 2⟩] ∧
      ∃ t,
        fetchingFromOne.downloads.transfer? "a" = some t ∧
          ∀ peer ∈ peers.map Prod.fst,
            t.Confirms peers peer := by
  have hRun :
      (fetchingFromOne.downloads.transfer? "a").isSome =
          true ∧
        ((fetchingFromOne.handleMessage
              (.answer oneByte [firstChunkEntry 2]) noHosts
                0).downloads.transfer? "a").map
            (fun t => (t.peers, t.evicted)) =
          (fetchingFromOne.downloads.transfer? "a").map
            (fun t => (t.peers, t.evicted)) := by
    decide +kernel
  rcases hRun with ⟨hSome, hSame⟩
  rcases Option.isSome_iff_exists.mp hSome with ⟨t, hGet⟩
  rw [hGet, Option.map_some, Option.map_eq_some_iff] at hSame
  rcases hSame with ⟨t', hAfter, hEq⟩
  refine ⟨by decide +kernel, t, hGet, ?_⟩
  have hFetching :
      fetchingFromOne.downloads.transfer? oneByte.name =
        some t := hGet
  exact (refresh_harmless_iff hFetching
    [firstChunkEntry 2] noHosts 0).mp
      (Or.inr ⟨t', hAfter, congrArg Prod.fst hEq,
        congrArg Prod.snd hEq⟩)

/-
  The tracker describes another file of the same name.  Its
  peer becomes a peer of the download.
-/
theorem exists_peer_of_another_file :
    (∃ described, fetchingFromOne.IsReachable described) ∧
      (oneByte.name = twoChunks.name ∧
        oneByte.size ≠ twoChunks.size ∧
        oneByte.digest ≠ twoChunks.digest ∧
        oneByte.chunkDigests ≠ twoChunks.chunkDigests) ∧
      ∃ t t',
        fetchingFromOne.downloads.transfer? "a" = some t ∧
          t.record = twoChunks ∧
          t.peers.get? ⟨.loopback, 3⟩ = none ∧
          (fetchingFromOne.handleMessage
              (.answer oneByte [firstChunkEntry 3]) noHosts
                0).downloads.transfer? "a" = some t' ∧
          (t'.peers.get? ⟨.loopback, 3⟩).map (·.held) =
            some [0] := by
  have hRun :
      (fetchingFromOne.downloads.transfer? "a").map
            (fun t =>
              (t.record, t.peers.get? ⟨.loopback, 3⟩)) =
          some (twoChunks, none) ∧
        ((fetchingFromOne.handleMessage
              (.answer oneByte [firstChunkEntry 3]) noHosts
                0).downloads.transfer? "a").map
            (fun t =>
              (t.peers.get? ⟨.loopback, 3⟩).map (·.held)) =
          some (some [0]) := by
    decide +kernel
  rcases hRun with ⟨hBefore, hAfter⟩
  rcases Option.map_eq_some_iff.mp hBefore with
    ⟨t, hGet, hKnown⟩
  rcases Option.map_eq_some_iff.mp hAfter with
    ⟨t', hGet', hHeld⟩
  exact ⟨exists_isReachable_fetchingFromOne,
    by decide +kernel, t, t', hGet,
    congrArg Prod.fst hKnown, congrArg Prod.snd hKnown, hGet',
    hHeld⟩

end Node

end PeerShare

import Mathlib.Data.Set.Basic
import PeerShare.Node.Answers
import PeerShare.Proofs.Node.Places
import PeerShare.Proofs.Node.Refreshing
import PeerShare.Proofs.Tracker.Answers
import PeerShare.Proofs.Tracker.Sessions
import PeerShare.Proofs.Wire.Codec

/-
  What a node tells of its chunks is what others learn.

  A pass packs the chunks that a node has, the tracker
  unpacks and notes them, packs them again into an answer,
  and who gets the answer unpacks and notes them for the
  address of the node.  No chunk is lost or added on the
  way, and a node that has no chunk is not listed.

  Key definitions include:
    * `Tracker.Catalog.entriesBut`
    * `reached`

  Key theorems include:
    * `ChunkSet.has_ofBytes_toWire`
    * `Tracker.Catalog.exists_query_update`
    * `Transfer.exists_holder_of_listed`
    * `Tracker.Catalog.availability`
-/

------------------------------------------------------------
-- Packed Sets
------------------------------------------------------------

namespace PeerShare

namespace ChunkSet

/- A packed set is no longer than its largest member. -/
theorem length_toWire_le
    {s : ChunkSet}
    {n : Nat}
    (h : ∀ i, s.has i = true → i < n) :
    s.toWire.length ≤ n / 8 + 1 := by
  have hLargest : Packing.largest s.members ≤ n := by
    apply Packing.largest_le
    intro i hi
    exact Nat.le_of_lt (h i (mem_members_iff.mp hi))
  rw [toWire, Packing.length_ofIndices]
  omega

/- Who knows that there are enough chunks gets all of them. -/
theorem has_ofBytes_toWire
    {s : ChunkSet}
    {n : Nat}
    (h : ∀ i, s.has i = true → i < n)
    (i : Nat) :
    (ofBytes s.toWire n).has i = s.has i := by
  rw [has_ofBytes, Bool.eq_iff_iff, decide_eq_true_iff,
    mem_toIndices_toWire]
  exact ⟨And.left, fun hHas => ⟨hHas, h i hHas⟩⟩

end ChunkSet

end PeerShare

------------------------------------------------------------
-- Entries
------------------------------------------------------------

namespace PeerShare

/- A binding stands between those of the other keys. -/
theorem Table.exists_values_split
    {κ α : Type}
    [Keyed κ]
    {t : Table κ α}
    {k : κ}
    {v : α}
    (h : t.get? k = some v) :
    ∃ before after,
      t.values = before ++ v :: after ∧
        (t.erase k).values = before ++ after := by
  rcases List.append_of_mem (mem_entries_iff.mpr h) with
    ⟨before, after, hEntries⟩
  have hSorted := t.sorted
  rw [hEntries, List.pairwise_append, List.pairwise_cons]
    at hSorted
  rcases hSorted with ⟨-, ⟨hAfter, -⟩, hBefore⟩
  have hOther :
      ∀ e : κ × α, e.1 ≠ k → (!sameKey e.1 k) = true := by
    intro e hNe
    rw [Bool.not_eq_true', Bool.eq_false_iff]
    exact fun hSame => hNe (sameKey_iff.mp hSame)
  have hErase :
      (t.erase k).entries = before ++ after := by
    change t.entries.filter (fun e => !sameKey e.1 k) = _
    have hSame : (!sameKey k k) = false := by
      rw [sameKey_iff.mpr rfl]
      rfl
    rw [hEntries, List.filter_append,
      List.filter_cons_of_neg (by simp [hSame]),
      List.filter_eq_self.mpr, List.filter_eq_self.mpr]
    · intro e he
      exact hOther e (Keyed.ne_of_before (hAfter e he)).symm
    · intro e he
      exact hOther e (Keyed.ne_of_before
        (hBefore e he _ List.mem_cons_self))
  refine ⟨before.map Prod.snd, after.map Prod.snd, ?_, ?_⟩
  · rw [values, hEntries, List.map_append, List.map_cons]
  · rw [values, hErase, List.map_append]

namespace Tracker

/- The entry of a peer that has some chunks. -/
def PeerRecord.entry
    (record : PeerRecord)
    (s : ChunkSet) : Wire.PeerEntry where
  identity := record.identity
  port := record.port
  bitfield := s.toWire

/- A peer of which some chunks are noted is listed so. -/
theorem PeerRecord.listing?_setHolding
    (record : PeerRecord)
    (name : String)
    (s : ChunkSet) :
    (record.setHolding name s).listing? name =
      if s.isEmpty then none else some (record.entry s) := by
  unfold listing? holding? setHolding
  dsimp only
  rw [Table.get?_insert_self]
  rfl

/- The entries of the peers other than one. -/
def Catalog.entriesBut
    (c : Catalog)
    (peer : PeerId)
    (name : String) : List Wire.PeerEntry :=
  (c.peers.erase peer).values.filterMap (·.listing? name)

namespace Catalog

variable {c c' : Catalog}
variable {peer : PeerId}
variable {record : PeerRecord}
variable {name : String}
variable {file : FileRecord}

/- A peer is listed between the others, if it is listed. -/
theorem exists_query_split
    (hFile : c.files.get? name = some file)
    (hPeer : c.peers.get? peer = some record) :
    ∃ before after,
      c.entriesBut peer name = before ++ after ∧
        c.query name =
          some
            (file,
              before ++ (record.listing? name).toList ++
                after) := by
  rcases Table.exists_values_split hPeer with
    ⟨before, after, hValues, hOthers⟩
  refine
    ⟨before.filterMap (·.listing? name),
      after.filterMap (·.listing? name), ?_, ?_⟩
  · rw [entriesBut, hOthers, List.filterMap_append]
  · unfold query
    rw [hFile, hValues, List.filterMap_append,
      List.append_assoc]
    dsimp only
    rw [List.filterMap_cons]
    cases record.listing? name <;> rfl

/-
  A peer that has told of a tracked file is listed between
  the others with what it has told.
-/
theorem exists_query_update
    {bits : Bytes}
    {isNoted : Bool}
    (hFile : c.files.get? name = some file)
    (hPeer : c.peers.get? peer = some record)
    (hUpdate : c.update peer name bits = (isNoted, c')) :
    let s := ChunkSet.ofBytes bits file.chunkCount
    isNoted = true ∧
      ∃ before after,
        c'.entriesBut peer name = before ++ after ∧
          c'.query name =
            some
              (file,
                before ++
                  (if s.isEmpty then none
                    else some (record.entry s)).toList ++
                  after) := by
  intro s
  simp only [update, hFile, hPeer, Prod.mk.injEq] at hUpdate
  rcases hUpdate with ⟨hNoted, rfl⟩
  refine ⟨hNoted.symm, ?_⟩
  rw [← PeerRecord.listing?_setHolding record name s]
  exact exists_query_split hFile (Table.get?_insert_self _ _ _)

end Catalog

end Tracker

end PeerShare

------------------------------------------------------------
-- Addresses
------------------------------------------------------------

namespace PeerShare

/- What is heard of the peers that can be reached. -/
def reached
    (addressOf : String → UInt16 → Option Endpoint)
    (entries : List Wire.PeerEntry) :
    List (Endpoint × Bytes) :=
  entries.filterMap fun e =>
    (addressOf e.identity e.port).map fun address =>
      (address, e.bitfield)

/- A node reaches the peers other than itself. -/
theorem Node.listedPeers_eq_reached
    (node : Node)
    (entries : List Wire.PeerEntry)
    (hosts : Hosts) :
    node.listedPeers entries hosts =
      reached
        (fun identity port =>
          if identity = node.identity ∧ port = node.port then
            none
          else
            ((IpAddress.parse? identity).map fun address =>
              ⟨address, port⟩).or (hosts identity port))
        entries := by
  unfold listedPeers otherPeers reached
  rw [List.filterMap_filter]
  apply List.filterMap_congr
  intro e _
  unfold resolve?
  by_cases hSelf :
      e.identity = node.identity ∧ e.port = node.port
  · simp [hSelf]
  · have hOther :
        (!(e.identity == node.identity &&
            e.port == node.port)) =
          true := by
      rw [Bool.not_eq_true', Bool.eq_false_iff]
      intro hEq
      exact hSelf (by simpa using hEq)
    dsimp only
    rw [if_neg hSelf, if_pos hOther]
    cases IpAddress.parse? e.identity with
    | some address => rfl
    | none => cases hosts e.identity e.port <;> rfl

namespace Transfer

/- An address is reported once if one entry alone has it. -/
theorem reported_reached
    {addressOf : String → UInt16 → Option Endpoint}
    {address : Endpoint}
    {before after : List Wire.PeerEntry}
    (own : Wire.PeerEntry)
    (hOwn : addressOf own.identity own.port = some address)
    (hOthers :
      ∀ e ∈ before ++ after,
        addressOf e.identity e.port ≠ some address)
    (n : Nat) :
    reported n (reached addressOf (before ++ own :: after))
        address =
      [ChunkSet.ofBytes own.bitfield n] := by
  have hNone :
      ∀ entries : List Wire.PeerEntry,
        (∀ e ∈ entries,
          addressOf e.identity e.port ≠ some address) →
        (reached addressOf entries).filter
            (fun e => e.1 = address) =
          [] := by
    intro entries hEntries
    rw [List.filter_eq_nil_iff]
    intro e he
    rcases List.mem_filterMap.mp he with ⟨entry, hMem, hEq⟩
    rcases Option.map_eq_some_iff.mp hEq with
      ⟨other, hOther, rfl⟩
    have hNe := hEntries entry hMem
    rw [hOther] at hNe
    simpa using fun hSame => hNe (congrArg some hSame)
  rcases List.forall_mem_append.mp hOthers with
    ⟨hBefore, hAfter⟩
  have hReached :
      reached addressOf (before ++ own :: after) =
        reached addressOf before ++
          (address, own.bitfield) ::
            reached addressOf after := by
    unfold reached
    rw [List.filterMap_append,
      List.filterMap_cons_some (by rw [hOwn]; rfl)]
  unfold reported
  rw [hReached, List.filter_append, hNone before hBefore,
    List.filter_cons_of_pos (by simp), hNone after hAfter]
  rfl

end Transfer

/- The chunks that a peer holds are those of its set. -/
theorem Holder.mem_held_iff
    {h : Holder}
    {i : Nat} :
    i ∈ h.held ↔ h.heldSet.has i = true := by
  rw [← ChunkSet.mem_members_iff, held, ChunkSet.members,
    heldSet, Array.toList_map]

/-
  The address of a peer that is listed alone with it has the
  chunks of the entry, whatever it had before.
-/
theorem Transfer.exists_holder_of_listed
    {t : Transfer}
    {addressOf : String → UInt16 → Option Endpoint}
    {address : Endpoint}
    {record : Tracker.PeerRecord}
    {s : ChunkSet}
    {before after : List Wire.PeerEntry}
    (hBelow : ∀ i, s.has i = true → i < t.chunkCount)
    (hEvicted : t.evicted.get? address = none)
    (hOwn :
      addressOf record.identity record.port = some address)
    (hOthers :
      ∀ e ∈ before ++ after,
        addressOf e.identity e.port ≠ some address) :
    ∃ holder,
      (t.applyPeers
            (reached addressOf
              (before ++ record.entry s :: after))).peers.get?
            address =
          some holder ∧
        ∀ i, i ∈ holder.held ↔ s.has i = true := by
  have hReported :=
    reported_reached (record.entry s) hOwn hOthers t.chunkCount
  have hSight :=
    t.sight_applyPeers
      (reached addressOf (before ++ record.entry s :: after))
      address
  rw [hReported, sight, sight, hEvicted] at hSight
  refine ⟨_, congrArg Prod.fst hSight, ?_⟩
  intro i
  rw [Holder.mem_held_iff, Holder.heldSet_report]
  exact Bool.eq_iff_iff.mp
    (ChunkSet.has_ofBytes_toWire hBelow i)

end PeerShare

------------------------------------------------------------
-- The Whole Way
------------------------------------------------------------

namespace PeerShare

namespace Tracker

namespace Catalog

variable {c c' : Catalog}
variable {peer : PeerId}
variable {record : PeerRecord}
variable {file : FileRecord}
variable {d : Downloads}
variable {t : Transfer}
variable {now : Moment}
variable {log : TransferLog}
variable {bits : Bytes}
variable {isNoted : Bool}
variable {S : Set Nat}

/- What is told of a file that can be described can be sent. -/
theorem decode_holdings
    (hFits : file.Fits)
    {s : ChunkSet}
    (hBelow : ∀ i, s.has i = true → i < file.chunkCount) :
    Wire.Message.decode
        (Wire.Message.holdings file.name s.toWire).payload =
      .ok (.holdings file.name s.toWire) := by
  rcases hFits with ⟨hName, hCount⟩
  have hLength := ChunkSet.length_toWire_le hBelow
  refine Wire.Message.decode_eq_ok_iff.mpr
    ⟨⟨hName, ?_⟩, rfl⟩
  rw [FileRecord.chunkCount] at hLength
  omega

/-
  The chunks that a pass tells the tracker are those that
  others learn from the answer for the address of the peer,
  however addresses are found.  A peer without chunks is not
  listed.
-/
theorem availability
    (hFile : c.files.get? file.name = some file)
    (hPeer : c.peers.get? peer = some record)
    (hNamed : d.IsNamed)
    (hTransfer : d.transfer? file.name = some t)
    (hS : ∀ i, i ∈ S ↔ t.Tells i)
    (hBelow : ∀ i ∈ S, i < file.chunkCount)
    (hTold :
      .holdings file.name bits ∈ (d.tick now log).1.messages)
    (hUpdate : c.update peer file.name bits = (isNoted, c'))
    (hFits : (c'.answerTo file.name).Fits) :
    Wire.Message.decode
          (Wire.Message.holdings file.name bits).payload =
        .ok (.holdings file.name bits) ∧
      serve peer (.holdings file.name bits) c =
        (.ok none, c') ∧
      isNoted = true ∧
      ∃ entries,
        c'.query file.name = some (file, entries) ∧
          Wire.Message.decode
              (Wire.Message.answer file entries).payload =
            .ok (.answer file entries) ∧
          (S.Nonempty →
            ∀ (addressOf : String → UInt16 → Option Endpoint)
              (address : Endpoint) (t' : Transfer),
              t'.chunkCount = file.chunkCount →
                t'.evicted.get? address = none →
                  addressOf record.identity record.port =
                      some address →
                    (∀ e ∈ c'.entriesBut peer file.name,
                      addressOf e.identity e.port ≠
                        some address) →
                      ∃ holder,
                        (t'.applyPeers
                            (reached addressOf
                              entries)).peers.get? address =
                          some holder ∧
                          ∀ i, i ∈ holder.held ↔ i ∈ S) ∧
          (S = ∅ → entries = c'.entriesBut peer file.name) := by
  have hBits :=
    Downloads.eq_told_of_mem_messages_tick hNamed hTransfer
      hTold
  subst hBits
  have hBelow' :
      ∀ i, t.told.has i = true → i < file.chunkCount :=
    fun i hi =>
      hBelow i ((hS i).mpr (Transfer.has_told_iff.mp hi))
  rcases exists_query_update hFile hPeer hUpdate with
    ⟨hNoted, before, after, hOthers, hQuery⟩
  -- what the tracker notes is what it is told
  have hHas :
      ∀ i,
        (ChunkSet.ofBytes t.told.toWire file.chunkCount).has
            i = true ↔
          i ∈ S := by
    intro i
    rw [ChunkSet.has_ofBytes_toWire hBelow',
      Transfer.has_told_iff, hS]
  generalize
    ChunkSet.ofBytes t.told.toWire file.chunkCount = s
    at hHas hQuery
  rw [answerTo, hQuery] at hFits
  dsimp only at hFits
  refine ⟨decode_holdings hFits.1 hBelow', ?_, hNoted, _,
    hQuery, Wire.Message.decode_eq_ok_iff.mpr ⟨hFits, rfl⟩,
    ?_, ?_⟩
  · rw [serve, hUpdate]
  · rintro ⟨k, hk⟩ addressOf address t' hCount hEvicted hOwn
      hElse
    have hSome : s.isEmpty = false := by
      rw [Bool.eq_false_iff]
      intro hEmpty
      have hNot := ChunkSet.isEmpty_iff.mp hEmpty k
      rw [(hHas k).mpr hk] at hNot
      cases hNot
    have hBelowNoted :
        ∀ i, s.has i = true → i < t'.chunkCount := by
      intro i hi
      rw [hCount]
      exact hBelow i ((hHas i).mp hi)
    rw [hOthers] at hElse
    rw [hSome, if_neg Bool.false_ne_true, Option.toList_some,
      List.append_assoc, List.singleton_append]
    rcases Transfer.exists_holder_of_listed hBelowNoted
      hEvicted hOwn hElse with ⟨holder, hHolder, hHeld⟩
    exact ⟨holder, hHolder, fun i => (hHeld i).trans (hHas i)⟩
  · intro hNone
    have hEmpty : s.isEmpty = true := by
      rw [ChunkSet.isEmpty_iff]
      intro i
      rw [Bool.eq_false_iff]
      intro hi
      have hMem := (hHas i).mp hi
      rw [hNone] at hMem
      exact hMem
    rw [hEmpty, if_pos rfl, hOthers, Option.toList_none,
      List.append_nil]

/- A tracker of the file of two chunks, with two peers. -/
def ofTwoPeers : Catalog :=
  let first := (empty.register "10.0.0.1" 4).2
  let second := (first.register "127.0.0.1" 7).2
  (second.publish 0 Node.twoChunks).2

/-
  The small node tells of the second chunk, which another
  peer learns next to the chunks of the publisher.
-/
theorem availability_of_halfway :
    let addressOf := fun identity port =>
      (IpAddress.parse? identity).map fun address =>
        Endpoint.mk address port
    .holdings "a" [64] ∈
        (Node.halfway.downloads.tick (Span.ofSeconds 6)
          Node.halfway.log).1.messages ∧
      ∃ c' entries holder,
        ofTwoPeers.update 1 "a" [64] = (true, c') ∧
          c'.query "a" = some (Node.twoChunks, entries) ∧
          Wire.Message.decode
              (Wire.Message.answer Node.twoChunks
                entries).payload =
            .ok (.answer Node.twoChunks entries) ∧
          ((Transfer.start Node.twoChunks "b" 0).applyPeers
              (reached addressOf entries)).peers.get?
                ⟨.loopback, 7⟩ =
            some holder ∧
          ∀ i, i ∈ holder.held ↔ i = 1 := by
  intro addressOf
  have hRun :
      (Node.halfway.downloads.transfer? "a").map
            (fun t => (t.told.chunkCount, t.told.members)) =
          some (2, [1]) ∧
        (Node.halfway.downloads.tick (Span.ofSeconds 6)
            Node.halfway.log).1.messages =
          [.holdings "a" [64], .refresh "a"] := by
    decide +kernel
  rcases hRun with ⟨hTransfer, hMessages⟩
  rcases Option.map_eq_some_iff.mp hTransfer with
    ⟨t, hGet, hTold⟩
  have hMembers : t.told.members = [1] :=
    congrArg Prod.snd hTold
  have hPushed :
      .holdings "a" [64] ∈
        (Node.halfway.downloads.tick (Span.ofSeconds 6)
          Node.halfway.log).1.messages :=
    hMessages ▸ List.mem_cons_self
  rcases Node.exists_isReachable_halfway with
    ⟨described, hReachable⟩
  have hNamed : Node.halfway.downloads.IsNamed :=
    fun name t hGet =>
      (hReachable.isBacked name t hGet).name_eq
  have hFile :
      ofTwoPeers.files.get? Node.twoChunks.name =
        some Node.twoChunks := by
    decide +kernel
  have hPeer :
      ofTwoPeers.peers.get? 1 =
        some
          { identity := "127.0.0.1"
            port := 7
            holdings := Table.empty } := by
    decide +kernel
  have hFits :
      ((ofTwoPeers.update 1 "a" [64]).2.answerTo "a").Fits :=
    Wire.Message.fits_of_length_payload (by decide +kernel)
  have hElse :
      ∀ e ∈ (ofTwoPeers.update 1 "a" [64]).2.entriesBut 1 "a",
        addressOf e.identity e.port ≠
          some ⟨.loopback, 7⟩ := by
    decide +kernel
  rcases availability (S := {1}) hFile hPeer hNamed hGet
      (by
        intro i
        rw [← Transfer.has_told_iff,
          ← ChunkSet.mem_members_iff, hMembers,
          List.mem_singleton]
        rfl)
      (by
        rintro i rfl
        decide)
      hPushed rfl hFits with
    ⟨-, -, hNoted, entries, hQuery, hDecode, hHeld, -⟩
  rcases hHeld ⟨1, rfl⟩ addressOf ⟨.loopback, 7⟩
      (Transfer.start Node.twoChunks "b" 0) (by decide) rfl
      (by decide +kernel) hElse with
    ⟨holder, hHolder, hIff⟩
  exact ⟨hPushed, _, entries, holder, Prod.ext hNoted rfl,
    hQuery, hDecode, hHolder, hIff⟩

end Catalog

end Tracker

end PeerShare

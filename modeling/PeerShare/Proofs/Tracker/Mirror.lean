import PeerShare.Proofs.Tracker.History

/-
  A catalog mirrors the log of what was done to it.

  An operation has one of six effects on a catalog.  Each of
  them keeps the catalog a mirror of the log that the entry
  of the operation is added to.

  Key definitions include:
    * `Tracker.Catalog.Effect`
    * `Tracker.Catalog.registrations`
    * `Tracker.Catalog.Reflects`
    * `Tracker.Catalog.Mirrors`

  Key theorems include:
    * `Tracker.Catalog.effect_perform`
    * `Tracker.Catalog.Mirrors.of_effect`
    * `Tracker.Catalog.mirrors_run`
-/

------------------------------------------------------------
-- Effects
------------------------------------------------------------

namespace PeerShare

namespace Tracker

namespace Catalog

/- What an operation may do to a catalog. -/
inductive Effect
    (c : Catalog) : Operation → Reply → Catalog → Prop where
  | register
      (identity : String)
      (port : UInt16) :
      c.Effect (.register identity port)
        (.registered c.nextPeer) (c.register identity port).2
  | unregister
      (peer : PeerId) :
      c.Effect (.unregister peer) .unregistered
        (c.unregister peer)
  | publish
      {publisher : PeerId}
      {file : FileRecord}
      {record : PeerRecord}
      (registered : c.peers.get? publisher = some record)
      (free : c.files.get? file.name = none) :
      c.Effect (.publish publisher file)
        (.published (.ok .accepted))
        { c with
          files := c.files.insert file.name file
          peers :=
            c.peers.insert publisher
              (record.setHolding file.name
                (ChunkSet.full file.chunkCount)) }
  | update
      {peer : PeerId}
      {name : String}
      {bitfield : Bytes}
      {file : FileRecord}
      {record : PeerRecord}
      (tracked : c.files.get? name = some file)
      (registered : c.peers.get? peer = some record) :
      c.Effect (.update peer name bitfield) (.updated true)
        { c with
          peers :=
            c.peers.insert peer
              (record.setHolding name
                (ChunkSet.ofBytes bitfield
                  file.chunkCount)) }
  | remove
      {requester : PeerId}
      {name : String} :
      c.Effect (.remove requester name) (.removed .removed)
        { c with
          files := c.files.erase name
          peers := c.peers.mapValues (·.dropHolding name) }
  | idle
      {o : Operation}
      {reply : Reply}
      (isIdle : reply.isIdle = true) :
      c.Effect o reply c

/- Every operation has one of the effects. -/
theorem effect_perform
    (c : Catalog)
    (o : Operation) :
    c.Effect o (c.perform o).1 (c.perform o).2 := by
  cases o with
  | register identity port => exact .register identity port
  | unregister peer => exact .unregister peer
  | query name => exact .idle rfl
  | publish publisher file =>
      simp only [perform, publish]
      split
      · exact .idle rfl
      · split
        · exact .idle rfl
        · rename_i record hGet
          split
          · exact .idle rfl
          · rename_i hFree
            refine .publish hGet ?_
            simpa [Table.contains] using hFree
  | update peer name bitfield =>
      simp only [perform, update]
      split
      · rename_i file record hFile hGet
        exact .update hFile hGet
      · exact .idle rfl
  | remove requester name =>
      simp only [perform, remove]
      split
      · exact .remove
      · exact .idle rfl

/- An operation that is refused changes nothing. -/
theorem perform_of_isRefusal
    {c : Catalog}
    {o : Operation}
    (h : (c.perform o).1.isRefusal = true) :
    (c.perform o).2 = c := by
  have hEffect := c.effect_perform o
  generalize c.perform o = result at h hEffect ⊢
  rcases result with ⟨reply, c'⟩
  cases hEffect with
  | idle isIdle => rfl
  | _ => cases h

end Catalog

end Tracker

end PeerShare

------------------------------------------------------------
-- Registrations of a Catalog
------------------------------------------------------------

namespace PeerShare

namespace Tracker

/- Where a peer is reached. -/
def PeerRecord.contact
    (record : PeerRecord) : String × UInt16 :=
  (record.identity, record.port)

/- The registration of a peer that is reached somewhere. -/
def Registration.ofContact
    (e : PeerId × (String × UInt16)) : Registration where
  peer := e.1
  identity := e.2.1
  port := e.2.2

namespace Catalog

/- The peers of a catalog, as they registered. -/
def registrations
    (c : Catalog) : List Registration :=
  (c.peers.mapValues (·.contact)).entries.map
    Registration.ofContact

variable {c : Catalog}

theorem registrations_eq_map
    (c : Catalog) :
    c.registrations =
      c.peers.entries.map fun e =>
        Registration.ofContact (e.1, e.2.contact) := by
  unfold registrations Table.mapValues
  rw [List.map_map]
  rfl

/- Numbers grow, so that a new peer is listed last. -/
theorem registrations_register
    (hLt :
      ∀ peer record,
        c.peers.get? peer = some record → peer < c.nextPeer)
    (identity : String)
    (port : UInt16) :
    (c.register identity port).2.registrations =
      c.registrations ++
        [{ peer := c.nextPeer, identity, port }] := by
  have hBefore :
      ∀ e ∈ c.peers.entries,
        Keyed.before e.1 c.nextPeer = true := by
    rintro ⟨peer, record⟩ hMem
    have := hLt peer record (Table.mem_entries_iff.mp hMem)
    simpa [Keyed.before, Keyed.code, codeLt] using this
  rw [registrations_eq_map, registrations_eq_map]
  unfold register
  dsimp only
  rw [Table.entries_insert_of_before _ hBefore,
    List.map_append]
  rfl

theorem registrations_unregister
    (c : Catalog)
    (peer : PeerId) :
    (c.unregister peer).registrations =
      c.registrations.filter fun r => r.peer ≠ peer := by
  rw [registrations_eq_map, registrations_eq_map]
  unfold unregister
  dsimp only
  rw [Table.entries_erase, List.filter_map]
  rfl

/- A peer stays as it registered, whatever it holds. -/
theorem registrations_insert
    {peer : PeerId}
    {record : PeerRecord}
    (hGet : c.peers.get? peer = some record)
    (name : String)
    (chunks : ChunkSet)
    (files : Table String FileRecord) :
    registrations
        { c with
          files
          peers :=
            c.peers.insert peer
              (record.setHolding name chunks) } =
      c.registrations := by
  unfold registrations
  dsimp only
  rw [Table.mapValues_insert_of_eq hGet]
  rfl

theorem registrations_mapValues
    (c : Catalog)
    (name : String)
    (files : Table String FileRecord) :
    registrations
        { c with
          files
          peers := c.peers.mapValues (·.dropHolding name) } =
      c.registrations := by
  unfold registrations
  dsimp only
  rw [Table.mapValues_mapValues]
  rfl

/- No peer is listed twice. -/
theorem nodup_registrations
    (c : Catalog) :
    (c.registrations.map Registration.peer).Nodup := by
  rw [registrations_eq_map, List.map_map]
  exact c.peers.nodup_keys

/- The registered peers are those that the catalog knows. -/
theorem exists_mem_registrations_iff
    {peer : PeerId} :
    (∃ r ∈ c.registrations, r.peer = peer) ↔
      ∃ record, c.peers.get? peer = some record := by
  rw [← Table.mem_keys_iff]
  unfold Table.keys
  rw [registrations_eq_map, ← List.mem_map, List.map_map]
  rfl

end Catalog

end Tracker

end PeerShare

------------------------------------------------------------
-- Mirrors
------------------------------------------------------------

namespace PeerShare

namespace Tracker

namespace Catalog

/- Whether a catalog has of a file what a log tells. -/
inductive Reflects
    (c : Catalog)
    (log : List Entry)
    (name : String) : Prop where
  | gone
      (untracked : c.files.get? name = none)
      (isGone : IsGone log name)
      (holding_eq :
        ∀ peer record,
          c.peers.get? peer = some record →
            record.holding? name = none)
  | alive
      {publisher : PeerId}
      {file : FileRecord}
      {later : List Entry}
      (tracked : c.files.get? name = some file)
      (isLife : IsLife log name publisher file later)
      (isNoted :
        ∀ peer record,
          c.peers.get? peer = some record →
            IsNoted publisher file later peer
              (record.holding? name))

/- Whether a catalog has of everything what a log tells. -/
structure Mirrors
    (c : Catalog)
    (log : List Entry) : Prop where
  registrations_eq : c.registrations = registered log
  lt_nextPeer :
    ∀ peer record,
      c.peers.get? peer = some record → peer < c.nextPeer
  actor_lt :
    ∀ e ∈ log, ∀ peer, Acts peer e → peer < c.nextPeer
  reflects : ∀ name, c.Reflects log name

theorem mirrors_empty :
    empty.Mirrors [] where
  registrations_eq := rfl
  lt_nextPeer := by
    intro peer record hGet
    cases hGet
  actor_lt := by
    intro e hMem
    cases hMem
  reflects := by
    intro name
    refine .gone rfl (isGone_nil name) ?_
    intro peer record hGet
    cases hGet

variable {c c' : Catalog}
variable {log : List Entry}
variable {name : String}
variable {e : Entry}

/-
  An entry that neither settles a file nor reports on it,
  and leaves it to the known peers what they hold of it.
-/
theorem Mirrors.reflects_concat
    (h : c.Mirrors log)
    (hSettles : ¬ Settles name e)
    (hReport : ∀ peer, report? peer name e = none)
    (hFiles : c'.files.get? name = c.files.get? name)
    (hHolding :
      ∀ peer record',
        c'.peers.get? peer = some record' →
          (∃ record,
              c.peers.get? peer = some record ∧
                record'.holding? name =
                  record.holding? name) ∨
            c.nextPeer ≤ peer ∧
              record'.holding? name = none) :
    c'.Reflects (log ++ [e]) name := by
  cases h.reflects name with
  | gone untracked isGone holding_eq =>
      refine .gone (hFiles.trans untracked)
        (isGone.concat hSettles) ?_
      intro peer record' hGet'
      rcases hHolding peer record' hGet' with
        ⟨record, hGet, hEq⟩ | ⟨-, hNone⟩
      · exact hEq.trans (holding_eq peer record hGet)
      · exact hNone
  | @alive publisher file later tracked isLife isNoted =>
      have hName := isLife.name_eq
      refine .alive (hFiles.trans tracked)
        (isLife.concat hSettles) ?_
      intro peer record' hGet'
      refine IsNoted.concat ?_ (hName ▸ hReport peer)
      rcases hHolding peer record' hGet' with
        ⟨record, hGet, hEq⟩ | ⟨hLe, hNone⟩
      · exact hEq ▸ isNoted peer record hGet
      · rw [hNone]
        refine isNoted_none (not_holds ?_)
        intro other hMem hActs
        exact Nat.not_lt_of_le hLe
          (h.actor_lt other (isLife.published.subset hMem)
            peer hActs)

/- Who does something next has a number already. -/
theorem Mirrors.actor_lt_concat
    (h : c.Mirrors log)
    (hLe : c.nextPeer ≤ c'.nextPeer)
    (hLast : ∀ peer, Acts peer e → peer < c'.nextPeer) :
    ∀ other ∈ log ++ [e], ∀ peer,
      Acts peer other → peer < c'.nextPeer := by
  intro other hMem peer hActs
  rcases List.mem_append.mp hMem with hMem | hMem
  · exact Nat.lt_of_lt_of_le
      (h.actor_lt other hMem peer hActs) hLe
  · rw [List.mem_singleton.mp hMem] at hActs
    exact hLast peer hActs

/- Noting a holding changes one holding of one peer. -/
theorem exists_of_get?_insert
    {peers : Table PeerId PeerRecord}
    {peer other : PeerId}
    {record record' : PeerRecord}
    {chunks : ChunkSet}
    (hGet : peers.get? peer = some record)
    (hGet' :
      (peers.insert peer
            (record.setHolding name chunks)).get? other =
        some record') :
    ∃ old,
      peers.get? other = some old ∧
        ∀ n,
          record'.holding? n =
            if other = peer ∧ n = name then some chunks
            else old.holding? n := by
  rw [Table.get?_insert] at hGet'
  split at hGet'
  · rename_i hSame
    have hEq := Table.sameKey_iff.mp hSame
    cases hGet'
    refine ⟨record, hEq ▸ hGet, ?_⟩
    intro n
    unfold PeerRecord.setHolding PeerRecord.holding?
    dsimp only
    rw [Table.get?_insert]
    by_cases hn : n = name
    · rw [if_pos (Table.sameKey_iff.mpr hn),
        if_pos ⟨hEq, hn⟩]
    · rw [if_neg (fun h => hn (Table.sameKey_iff.mp h)),
        if_neg (fun h => hn h.2)]
  · rename_i hSame
    refine ⟨record', hGet', ?_⟩
    intro n
    rw [if_neg (fun h => hSame (Table.sameKey_iff.mpr h.1))]

/- Dropping a holding does so for every peer. -/
theorem exists_of_get?_mapValues
    {peers : Table PeerId PeerRecord}
    {peer : PeerId}
    {record' : PeerRecord}
    (hGet' :
      (peers.mapValues (·.dropHolding name)).get? peer =
        some record') :
    ∃ old,
      peers.get? peer = some old ∧
        ∀ n,
          record'.holding? n =
            if n = name then none else old.holding? n := by
  rw [Table.get?_mapValues, Option.map_eq_some_iff] at hGet'
  rcases hGet' with ⟨old, hGet, rfl⟩
  refine ⟨old, hGet, ?_⟩
  intro n
  unfold PeerRecord.dropHolding PeerRecord.holding?
  dsimp only
  rw [Table.get?_erase]
  by_cases hn : n = name
  · rw [if_pos (Table.sameKey_iff.mpr hn), if_pos hn]
  · rw [if_neg (fun h => hn (Table.sameKey_iff.mp h)),
      if_neg hn]

end Catalog

end Tracker

end PeerShare

------------------------------------------------------------
-- Steps
------------------------------------------------------------

namespace PeerShare

namespace Tracker

namespace Catalog

variable {c c' : Catalog}
variable {log : List Entry}
variable {o : Operation}
variable {reply : Reply}

theorem Mirrors.register
    (h : c.Mirrors log)
    (identity : String)
    (port : UInt16) :
    (c.register identity port).2.Mirrors
      (log ++
        [(.register identity port,
          .registered c.nextPeer)]) where
  registrations_eq := by
    rw [registrations_register h.lt_nextPeer,
      registered_concat, h.registrations_eq]
    rfl
  lt_nextPeer := by
    intro peer record hGet
    unfold Catalog.register at hGet
    dsimp only at hGet
    rw [Table.get?_insert] at hGet
    split at hGet
    · rename_i hSame
      rw [Table.sameKey_iff.mp hSame]
      exact Nat.lt_succ_self _
    · exact Nat.lt_succ_of_lt (h.lt_nextPeer peer record hGet)
  actor_lt := by
    refine h.actor_lt_concat (Nat.le_succ _) ?_
    rintro peer (⟨file, hEq⟩ | ⟨name, bitfield, hEq⟩)
    · simp [publication] at hEq
    · simp [report] at hEq
  reflects := by
    intro name
    refine h.reflects_concat ?_ (fun peer => rfl) rfl ?_
    · simp [Settles, publication, removal]
    · intro peer record' hGet'
      unfold Catalog.register at hGet'
      dsimp only at hGet'
      rw [Table.get?_insert] at hGet'
      split at hGet'
      · rename_i hSame
        cases hGet'
        rw [Table.sameKey_iff.mp hSame]
        exact Or.inr ⟨Nat.le_refl _, rfl⟩
      · exact Or.inl ⟨record', hGet', rfl⟩

theorem Mirrors.unregister
    (h : c.Mirrors log)
    (peer : PeerId) :
    (c.unregister peer).Mirrors (log ++ [departure peer]) := by
  have hGets :
      ∀ other record',
        (c.unregister peer).peers.get? other = some record' →
          c.peers.get? other = some record' := by
    intro other record' hGet'
    unfold Catalog.unregister at hGet'
    dsimp only at hGet'
    rw [Table.get?_erase] at hGet'
    split at hGet'
    · cases hGet'
    · exact hGet'
  exact {
    registrations_eq := by
      rw [registrations_unregister, registered_concat,
        h.registrations_eq]
      rfl
    lt_nextPeer := fun other record' hGet' =>
      h.lt_nextPeer other record' (hGets other record' hGet')
    actor_lt := by
      refine h.actor_lt_concat (Nat.le_refl _) ?_
      rintro other (⟨file, hEq⟩ | ⟨name, bitfield, hEq⟩)
      · simp [publication, departure] at hEq
      · simp [report, departure] at hEq
    reflects := by
      intro name
      refine h.reflects_concat ?_ (fun other => rfl) rfl ?_
      · simp [Settles, publication, removal, departure]
      · intro other record' hGet'
        exact Or.inl
          ⟨record', hGets other record' hGet', rfl⟩ }

/- A publication is accepted just under a free name. -/
theorem Mirrors.publish
    (h : c.Mirrors log)
    {publisher : PeerId}
    {file : FileRecord}
    {record : PeerRecord}
    (hGet : c.peers.get? publisher = some record)
    (hFree : c.files.get? file.name = none) :
    Mirrors
      { c with
        files := c.files.insert file.name file
        peers :=
          c.peers.insert publisher
            (record.setHolding file.name
              (ChunkSet.full file.chunkCount)) }
      (log ++ [publication publisher file]) where
  registrations_eq := by
    rw [registrations_insert hGet, registered_concat,
      h.registrations_eq]
    rfl
  lt_nextPeer := by
    intro peer record' hGet'
    rcases exists_of_get?_insert hGet hGet' with ⟨old, hOld, -⟩
    exact h.lt_nextPeer peer old hOld
  actor_lt := by
    refine h.actor_lt_concat (Nat.le_refl _) ?_
    rintro peer (⟨other, hEq⟩ | ⟨name, bitfield, hEq⟩)
    · simp only [publication, Prod.mk.injEq,
        Operation.publish.injEq, and_true] at hEq
      rw [← hEq.1]
      exact h.lt_nextPeer publisher record hGet
    · simp [report, publication] at hEq
  reflects := by
    intro name
    by_cases hName : name = file.name
    · subst hName
      refine .alive (Table.get?_insert_self _ _ _)
        (isLife_concat_publication log publisher file) ?_
      intro peer record' hGet'
      rcases exists_of_get?_insert hGet hGet' with
        ⟨old, hOld, hHolding⟩
      rw [hHolding]
      -- before the publication no peer held a chunk
      have hNone : old.holding? file.name = none := by
        cases h.reflects file.name with
        | gone untracked isGone holding_eq =>
            exact holding_eq peer old hOld
        | alive tracked isLife isNoted =>
            rw [hFree] at tracked
            cases tracked
      rw [hNone]
      by_cases hPeer : peer = publisher
      · rw [if_pos ⟨hPeer, rfl⟩]
        refine isNoted_some (ChunkSet.chunkCount_full _) ?_
        intro i
        rw [ChunkSet.has_full, decide_eq_true_iff]
        exact ⟨fun hLt => ⟨hLt, hPeer⟩, And.left⟩
      · rw [if_neg (fun h => hPeer h.1)]
        exact isNoted_none fun i hHolds => hPeer hHolds.2
    · refine h.reflects_concat ?_ (fun peer => rfl)
        (Table.get?_insert_of_ne _ _ hName) ?_
      · rintro
          (⟨peer, other, hEq, hOther⟩ | ⟨requester, hEq⟩)
        · simp only [publication, Prod.mk.injEq,
            Operation.publish.injEq, and_true] at hEq
          rw [hEq.2] at hName
          exact hName hOther.symm
        · simp [removal, publication] at hEq
      · intro peer record' hGet'
        rcases exists_of_get?_insert hGet hGet' with
          ⟨old, hOld, hHolding⟩
        refine Or.inl ⟨old, hOld, ?_⟩
        rw [hHolding, if_neg (fun h => hName h.2)]

theorem Mirrors.update
    (h : c.Mirrors log)
    {peer : PeerId}
    {name : String}
    (bitfield : Bytes)
    {file : FileRecord}
    {record : PeerRecord}
    (hFile : c.files.get? name = some file)
    (hGet : c.peers.get? peer = some record) :
    Mirrors
      { c with
        peers :=
          c.peers.insert peer
            (record.setHolding name
              (ChunkSet.ofBytes bitfield file.chunkCount)) }
      (log ++ [report peer name bitfield]) where
  registrations_eq := by
    rw [registrations_insert hGet, registered_concat,
      h.registrations_eq]
    rfl
  lt_nextPeer := by
    intro other record' hGet'
    rcases exists_of_get?_insert hGet hGet' with ⟨old, hOld, -⟩
    exact h.lt_nextPeer other old hOld
  actor_lt := by
    refine h.actor_lt_concat (Nat.le_refl _) ?_
    rintro other (⟨file, hEq⟩ | ⟨name, bitfield, hEq⟩)
    · simp [report, publication] at hEq
    · simp only [report, Prod.mk.injEq,
        Operation.update.injEq, and_true] at hEq
      rw [← hEq.1]
      exact h.lt_nextPeer peer record hGet
  reflects := by
    intro n
    have hSettles :
        ¬ Settles n (report peer name bitfield) := by
      simp [Settles, publication, removal, report]
    by_cases hName : n = name
    · subst hName
      cases h.reflects n with
      | gone untracked isGone holding_eq =>
          rw [hFile] at untracked
          cases untracked
      | @alive publisher file' later tracked isLife isNoted =>
          cases hFile.symm.trans tracked
          refine .alive tracked (isLife.concat hSettles) ?_
          intro other record' hGet'
          rcases exists_of_get?_insert hGet hGet' with
            ⟨old, hOld, hHolding⟩
          rw [hHolding]
          by_cases hOther : other = peer
          · rw [if_pos ⟨hOther, rfl⟩, hOther,
              ← isLife.name_eq]
            refine isNoted_some
              (ChunkSet.chunkCount_ofBytes _ _) ?_
            intro i
            rw [holds_concat_report, ChunkSet.has_ofBytes,
              decide_eq_true_iff,
              Packing.mem_toIndices_iff_hasBit, and_comm]
          · rw [if_neg (fun h => hOther h.1)]
            refine (isNoted other old hOld).concat ?_
            simp [report?, report, Ne.symm hOther]
    · refine h.reflects_concat hSettles ?_ rfl ?_
      · intro other
        simp [report?, report, Ne.symm hName]
      · intro other record' hGet'
        rcases exists_of_get?_insert hGet hGet' with
          ⟨old, hOld, hHolding⟩
        refine Or.inl ⟨old, hOld, ?_⟩
        rw [hHolding, if_neg (fun h => hName h.2)]

theorem Mirrors.remove
    (h : c.Mirrors log)
    (requester : PeerId)
    (name : String) :
    Mirrors
      { c with
        files := c.files.erase name
        peers := c.peers.mapValues (·.dropHolding name) }
      (log ++ [removal requester name]) where
  registrations_eq := by
    rw [registrations_mapValues, registered_concat,
      h.registrations_eq]
    rfl
  lt_nextPeer := by
    intro peer record' hGet'
    rcases exists_of_get?_mapValues hGet' with ⟨old, hOld, -⟩
    exact h.lt_nextPeer peer old hOld
  actor_lt := by
    refine h.actor_lt_concat (Nat.le_refl _) ?_
    rintro peer (⟨file, hEq⟩ | ⟨other, bitfield, hEq⟩)
    · simp [removal, publication] at hEq
    · simp [removal, report] at hEq
  reflects := by
    intro n
    by_cases hName : n = name
    · subst hName
      refine .gone (Table.get?_erase_self _ _)
        (isGone_concat_removal log requester n) ?_
      intro peer record' hGet'
      rcases exists_of_get?_mapValues hGet' with
        ⟨old, hOld, hHolding⟩
      rw [hHolding, if_pos rfl]
    · refine h.reflects_concat ?_ (fun peer => rfl)
        (Table.get?_erase_of_ne _ hName) ?_
      · simp [Settles, publication, removal, Ne.symm hName]
      · intro peer record' hGet'
        rcases exists_of_get?_mapValues hGet' with
          ⟨old, hOld, hHolding⟩
        refine Or.inl ⟨old, hOld, ?_⟩
        rw [hHolding, if_neg hName]

theorem Mirrors.idle
    (h : c.Mirrors log)
    {e : Entry}
    (hIdle : e.2.isIdle = true) :
    c.Mirrors (log ++ [e]) where
  registrations_eq := by
    rw [registered_concat, noteRegistration_of_isIdle hIdle,
      h.registrations_eq]
  lt_nextPeer := h.lt_nextPeer
  actor_lt :=
    h.actor_lt_concat (Nat.le_refl _) fun peer hActs =>
      absurd hActs (not_acts_of_isIdle hIdle peer)
  reflects := by
    intro name
    refine h.reflects_concat
      (not_settles_of_isIdle hIdle name) ?_ rfl ?_
    · intro peer
      exact report?_of_not_acts
        (not_acts_of_isIdle hIdle peer) name
    · exact fun peer record hGet =>
        Or.inl ⟨record, hGet, rfl⟩

/- An operation leaves the catalog a mirror of the log. -/
theorem Mirrors.of_effect
    (h : c.Mirrors log)
    (hEffect : c.Effect o reply c') :
    c'.Mirrors (log ++ [(o, reply)]) := by
  cases hEffect with
  | register identity port => exact h.register identity port
  | unregister peer => exact h.unregister peer
  | publish registered free => exact h.publish registered free
  | update tracked registered =>
      exact h.update _ tracked registered
  | remove => exact h.remove _ _
  | idle isIdle => exact h.idle isIdle

/- A catalog mirrors all that has been done to it. -/
theorem mirrors_run
    (operations : List Operation) :
    (empty.run operations).Mirrors
      (empty.history operations) := by
  induction operations using List.reverseRecOn with
  | nil => exact mirrors_empty
  | append_singleton operations o ih =>
      rw [run_concat, history_concat]
      exact ih.of_effect (effect_perform _ o)

end Catalog

end Tracker

end PeerShare

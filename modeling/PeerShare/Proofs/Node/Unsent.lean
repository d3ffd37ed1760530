import PeerShare.Proofs.Node.Offering

/-
  What is left of a command that cannot be sent.

  A node changes before it tells the tracker of a command.
  When the tracker cannot be told, a file that was to be
  published and a file that was to be fetched are taken back
  without a trace.  A file that was to be removed is not put
  back: it is served no longer, although the tracker still
  lists it.

  Key definitions include:
    * `Node.Command`
    * `Node.answer`
    * `Node.unsent`
    * `Node.SamePlaces`

  Key theorems include:
    * `Node.publish_of_notConnected`
    * `Node.request_of_notConnected`
    * `Node.remove_of_notConnected`
    * `Node.unsent_harmless_iff`
-/

------------------------------------------------------------
-- Taking Back
------------------------------------------------------------

namespace PeerShare

/- A file that did not wait before waits no longer. -/
theorem Offers.reject_await
    {o : Offers}
    {file : LocalFile}
    (h : o.pending.get? file.record.name = none) :
    (o.await file).reject file.record.name = o := by
  unfold reject await
  dsimp only
  rw [Table.erase_insert_of_get?_eq_none h]

/- A file that was not fetched is not fetched any longer. -/
theorem Downloads.discard_request
    {d d' : Downloads}
    {name : String}
    {now : Moment}
    (h : d.request name now = (true, d')) :
    (d'.discard name).2 = d := by
  unfold request at h
  split at h
  · cases h
  · rename_i hContains
    cases h
    have hNone : d.files.get? name = none :=
      Table.contains_eq_false_iff.mp
        (Bool.not_eq_true _ ▸ hContains)
    unfold discard
    dsimp only
    rw [Table.erase_insert_of_get?_eq_none hNone]

end PeerShare

------------------------------------------------------------
-- Commands
------------------------------------------------------------

namespace PeerShare

namespace Node

/- What a user asks of a node. -/
inductive Command where
  | publish (path : String)
  | request (name : String) (now : Moment)
  | remove (name : String)

/- The event that a command is. -/
def Command.event : Command → Event
  | publish path => .publish path
  | request name now => .request name now
  | remove name => .remove name

/- What a command is answered. -/
def answer
    (node : Node) :
    Command → Except NodeError Unit
  | .publish path => (node.publish path).1.map fun _ => ()
  | .request name now => (node.request name now).1
  | .remove name => (node.remove name).1

/- What is left of a node when a command cannot be sent. -/
def unsent
    (node : Node) :
    Command → Node
  | .remove name =>
      { node with
        offers :=
          { node.offers with
            published := node.offers.published.erase name } }
  | _ => node

/- Two states with the same files in the same places. -/
structure SamePlaces
    (node node' : Node) : Prop where
  pending_eq : node'.offers.pending = node.offers.pending
  published_eq :
    node'.offers.published = node.offers.published
  downloads_eq : node'.downloads = node.downloads

variable {node : Node}
variable {path name : String}

theorem describeFile_ne_notConnected
    (node : Node)
    (name path : String) :
    node.describeFile name path ≠ .error .notConnected := by
  intro h
  unfold describeFile at h
  split at h
  · cases h
  · dsimp only at h
    split at h
    · cases h
    · split at h
      · cases h
      · cases h

/- A file that cannot be told of does not wait. -/
theorem publishFile_of_notConnected
    (h : (node.publishFile path).1 = .error .notConnected) :
    node.isConnected = false ∧
      (node.publishFile path).2 = node := by
  unfold publishFile at h ⊢
  cases hName : Path.fileName? path with
  | none =>
      rw [hName] at h
      cases h
  | some name =>
      simp only [hName] at h ⊢
      by_cases hTracks : node.tracks name = true
      · rw [if_pos hTracks] at h
        cases h
      · rw [if_neg hTracks] at h ⊢
        cases hRecord : node.describeFile name path with
        | error e =>
            rw [hRecord] at h
            cases h
            exact absurd hRecord
              (node.describeFile_ne_notConnected name path)
        | ok record =>
            simp only [hRecord] at h ⊢
            let file : LocalFile := { record, path }
            let waiting : Node :=
              { node with offers := node.offers.await file }
            by_cases hConnected : node.isConnected = true
            · rw [@send_of_isConnected waiting hConnected] at h
              cases h
            · rw [@send_of_not_isConnected waiting hConnected]
              refine ⟨Bool.eq_false_iff.mpr hConnected, ?_⟩
              have hRecordName := name_of_describeFile hRecord
              have hPending :
                  node.offers.pending.get? file.record.name =
                    none := by
                rw [hRecordName]
                exact (get?_of_tracks_eq_false
                  (Bool.eq_false_iff.mpr hTracks)).1
              have hBack := Offers.reject_await hPending
              rw [hRecordName] at hBack
              simp only [waiting, hBack]

/- Only a single file is refused for the way to the tracker. -/
theorem publish_of_notConnected
    (h : (node.publish path).1 = .error .notConnected) :
    node.isConnected = false ∧
      (node.publish path).2 = node := by
  unfold publish at h ⊢
  cases hDirectory : node.disk.isDirectory path with
  | error e =>
      rw [hDirectory] at h
      cases h
  | ok isDirectory =>
      rw [hDirectory] at h
      cases isDirectory with
      | false =>
          have hFile := @publishFile_of_notConnected node path
          dsimp only at h ⊢
          cases hPublish : node.publishFile path with
          | mk result node' =>
              rw [hPublish] at h hFile
              cases result with
              | error e =>
                  cases h
                  exact hFile rfl
              | ok name => cases h
      | true =>
          dsimp only at h
          cases hFiles : node.disk.filesUnder path with
          | error e =>
              rw [hFiles] at h
              cases h
          | ok files =>
              rw [hFiles] at h
              cases h

/- A file that cannot be asked for is not fetched. -/
theorem request_of_notConnected
    {now : Moment}
    (h : (node.request name now).1 = .error .notConnected) :
    node.isConnected = false ∧
      (node.request name now).2 = node := by
  unfold request at h ⊢
  by_cases hOffered : node.offers.contains name = true
  · rw [if_pos hOffered] at h
    cases h
  · rw [if_neg hOffered] at h ⊢
    cases hRequest : node.downloads.request name now with
    | mk isNew downloads =>
        rw [hRequest] at h
        cases isNew with
        | false => cases h
        | true =>
            let asking : Node := { node with downloads }
            dsimp only at h ⊢
            by_cases hConnected : node.isConnected = true
            · rw [@send_of_isConnected asking hConnected] at h
              cases h
            · rw [@send_of_not_isConnected asking hConnected]
              refine ⟨Bool.eq_false_iff.mpr hConnected, ?_⟩
              dsimp only
              rw [Downloads.discard_request hRequest]

/- A file that the tracker cannot forget was served. -/
theorem remove_of_notConnected
    (h : (node.remove name).1 = .error .notConnected) :
    node.isConnected = false ∧
      node.offers.published.contains name = true ∧
      (node.remove name).2 = node.unsent (.remove name) := by
  unfold remove Offers.withdraw? at h ⊢
  by_cases hServed : node.offers.published.contains name = true
  · rw [if_pos hServed] at h ⊢
    let withdrawn : Node :=
      { node with
        offers :=
          { node.offers with
            published := node.offers.published.erase name } }
    dsimp only at h ⊢
    by_cases hConnected : node.isConnected = true
    · rw [@send_of_isConnected withdrawn hConnected] at h
      cases h
    · rw [@send_of_not_isConnected withdrawn hConnected]
      exact ⟨Bool.eq_false_iff.mpr hConnected, hServed, rfl⟩
  · rw [if_neg hServed] at h
    cases h

/-
  A file that was served is not served any longer when it
  was removed in vain.
-/
theorem not_samePlaces_unsent
    (h : node.offers.published.contains name = true) :
    ¬ node.SamePlaces (node.unsent (.remove name)) := by
  rintro ⟨-, hPublished, -⟩
  have hErased :
      (node.offers.published.erase name).contains name =
        false :=
    Table.contains_eq_false_iff.mpr
      (Table.get?_erase_self _ _)
  have hSame :
      node.offers.published.erase name =
        node.offers.published := hPublished
  rw [hSame, h] at hErased
  cases hErased

/-
  A command that cannot be sent leaves every file in its
  place just if it is not a removal.  Nothing at all is left
  of the other commands, and of a removal nothing but that
  the file is served no longer.
-/
theorem unsent_harmless_iff
    {c : Command}
    (h : node.answer c = .error .notConnected) :
    node.isConnected = false ∧
      node.after c.event = node.unsent c ∧
      (node.SamePlaces (node.after c.event) ↔
        ∀ name, c ≠ .remove name) := by
  cases c with
  | publish path =>
      have hPublish :
          (node.publish path).1 = .error .notConnected := by
        simp only [answer] at h
        cases hResult : (node.publish path).1 with
        | error e =>
            rw [hResult] at h
            cases h
            rfl
        | ok names =>
            rw [hResult] at h
            cases h
      rcases publish_of_notConnected hPublish with
        ⟨hConnected, hSame⟩
      have hAfter :
          node.after (Command.publish path).event = node :=
        hSame
      refine ⟨hConnected, hAfter, ?_⟩
      rw [hAfter]
      exact iff_of_true ⟨rfl, rfl, rfl⟩ (by simp)
  | request name now =>
      rcases request_of_notConnected h with
        ⟨hConnected, hSame⟩
      have hAfter :
          node.after (Command.request name now).event =
            node :=
        hSame
      refine ⟨hConnected, hAfter, ?_⟩
      rw [hAfter]
      exact iff_of_true ⟨rfl, rfl, rfl⟩ (by simp)
  | remove name =>
      rcases remove_of_notConnected h with
        ⟨hConnected, hServed, hLeft⟩
      have hAfter :
          node.after (Command.remove name).event =
            node.unsent (.remove name) :=
        hLeft
      refine ⟨hConnected, hAfter, ?_⟩
      rw [hAfter]
      refine iff_of_false (not_samePlaces_unsent hServed) ?_
      exact fun hNone => hNone name rfl

end Node

end PeerShare

------------------------------------------------------------
-- A Removal in Vain
------------------------------------------------------------

namespace PeerShare

namespace Node

/- A disk with a file of one byte. -/
def oneByteDisk : Disk :=
  (Disk.empty.store "a" [7]).toOption.getD Disk.empty

/- A node that has published a file, and is shut down. -/
def stranded : Node :=
  (start (some "n") .loopback 1 "d" oneByteDisk).run
    [.publish "a",
      .receive (Wire.Message.success "a" .publish).payload
        noHosts 0,
      .shutDown]

theorem exists_isReachable_stranded :
    ∃ described, stranded.IsReachable described := by
  unfold stranded
  exact ⟨_, (IsReachable.start (some "n") .loopback 1 "d"
    oneByteDisk).run _⟩

/- A request is taken back, and a removal is not. -/
theorem unsent_harmless_iff_of_stranded :
    (stranded.answer (.request "b" 0) = .error .notConnected ∧
        stranded.SamePlaces (stranded.after (.request "b" 0))) ∧
      stranded.answer (.remove "a") = .error .notConnected ∧
      ¬ stranded.SamePlaces (stranded.after (.remove "a")) := by
  have hRequest :
      stranded.answer (.request "b" 0) =
        .error .notConnected := by
    decide +kernel
  have hRemove :
      stranded.answer (.remove "a") = .error .notConnected := by
    decide +kernel
  refine ⟨⟨hRequest, ?_⟩, hRemove, ?_⟩
  · rcases unsent_harmless_iff hRequest with ⟨-, -, hIff⟩
    exact hIff.mpr (by simp)
  · rcases unsent_harmless_iff hRemove with ⟨-, -, hIff⟩
    intro hSame
    exact hIff.mp hSame "a" rfl

/-
  The tracker cannot be told of a removal, and the file is
  served no longer.
-/
theorem exists_removal_lost :
    ∃ (node : Node) (described : List FileRecord),
      node.IsReachable described ∧
        (node.remove "a").1 = .error .notConnected ∧
        node.offers.published.contains "a" = true ∧
        (node.remove "a").2.offers.published.contains "a" =
          false ∧
        (node.remove "a").2.offers.published ≠
          node.offers.published := by
  rcases exists_isReachable_stranded with
    ⟨described, hReachable⟩
  exact ⟨stranded, described, hReachable, by decide +kernel,
    by decide +kernel, by decide +kernel, by decide +kernel⟩

end Node

end PeerShare

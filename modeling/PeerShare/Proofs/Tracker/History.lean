import Mathlib.Data.List.Induction
import PeerShare.Proofs.Packing.Masks
import PeerShare.Tracker.Catalog

/-
  What a tracker was asked to do and what it replied, and
  what such a log tells about files and peers.

  The log knows nothing of how a catalog is kept.  A peer is
  registered from its registration on until it is
  unregistered, a file lives from the publication that was
  accepted to the removal that succeeded, and what a peer
  holds of a file is what it told last in that life.

  Key definitions include:
    * `Tracker.Operation`
    * `Tracker.Catalog.perform`
    * `Tracker.Catalog.history`
    * `Tracker.registered`
    * `Tracker.IsRegistered`
    * `Tracker.IsGone`
    * `Tracker.IsLife`
    * `Tracker.Holds`
    * `Tracker.IsNoted`

  Key theorems include:
    * `Tracker.mem_registered_iff`
    * `Tracker.registered_sublist`
    * `Tracker.IsLife.concat`
    * `Tracker.holds_concat_report`
-/

------------------------------------------------------------
-- Operations and Replies
------------------------------------------------------------

namespace PeerShare

namespace Tracker

/- What a tracker may be asked to do. -/
inductive Operation where
  | register (identity : String) (port : UInt16)
  | unregister (peer : PeerId)
  | publish (publisher : PeerId) (file : FileRecord)
  | query (name : String)
  | update
      (peer : PeerId)
      (name : String)
      (bitfield : Bytes)
  /- Whoever asks, a file is removed. -/
  | remove (requester : PeerId) (name : String)
  deriving DecidableEq

/- What a tracker replies. -/
inductive Reply where
  | registered (peer : PeerId)
  | unregistered
  | published (outcome : Except TrackerError PublishOutcome)
  | answered
      (answer : Option (FileRecord × List Wire.PeerEntry))
  | updated (isKnown : Bool)
  | removed (outcome : RemoveOutcome)

/- An operation and the reply to it. -/
abbrev Entry :=
  Operation × Reply

/- Whether an operation has been refused. -/
def Reply.isRefusal : Reply → Bool
  | .published (.error _) => true
  | .published (.ok .alreadyExists) => true
  | .updated false => true
  | .removed .notFound => true
  | _ => false

/- Whether a reply stands for no change. -/
def Reply.isIdle : Reply → Bool
  | .answered _ => true
  | reply => reply.isRefusal

/- Whether an operation names no file but this one. -/
def Operation.concerns
    (name : String) : Operation → Bool
  | .register _ _ => true
  | .unregister _ => true
  | .publish _ file => file.name = name
  | .query other => other = name
  | .update _ other _ => other = name
  | .remove _ other => other = name

namespace Catalog

/- The reply to an operation, and the catalog after it. -/
def perform
    (c : Catalog) : Operation → Reply × Catalog
  | .register identity port =>
      (.registered (c.register identity port).1,
        (c.register identity port).2)
  | .unregister peer => (.unregistered, c.unregister peer)
  | .publish publisher file =>
      (.published (c.publish publisher file).1,
        (c.publish publisher file).2)
  | .query name => (.answered (c.query name), c)
  | .update peer name bitfield =>
      (.updated (c.update peer name bitfield).1,
        (c.update peer name bitfield).2)
  | .remove _ name =>
      (.removed (c.remove name).1, (c.remove name).2)

/- The catalog after some operations, one after another. -/
def run
    (c : Catalog)
    (operations : List Operation) : Catalog :=
  operations.foldl (fun c o => (c.perform o).2) c

/- The operations with the replies to them, in order. -/
def history
    (c : Catalog) : List Operation → List Entry
  | [] => []
  | o :: operations =>
      (o, (c.perform o).1) :: (c.perform o).2.history operations

theorem run_concat
    (c : Catalog)
    (operations : List Operation)
    (o : Operation) :
    c.run (operations ++ [o]) =
      ((c.run operations).perform o).2 := by
  unfold run
  rw [List.foldl_append, List.foldl_cons, List.foldl_nil]

theorem history_concat
    (c : Catalog)
    (operations : List Operation)
    (o : Operation) :
    c.history (operations ++ [o]) =
      c.history operations ++
        [(o, ((c.run operations).perform o).1)] := by
  induction operations generalizing c with
  | nil => rfl
  | cons first operations ih =>
      simp only [List.cons_append, history, ih, run,
        List.foldl_cons]

end Catalog

end Tracker

end PeerShare

------------------------------------------------------------
-- Registered Peers
------------------------------------------------------------

namespace PeerShare

namespace Tracker

/-
  An entry stands in a log with others behind it just if it
  is the last, or stood so before the last one was added.
-/
theorem cons_suffix_concat_iff
    {log later : List Entry}
    {e last : Entry} :
    e :: later <:+ log ++ [last] ↔
      e = last ∧ later = [] ∨
        ∃ before, later = before ++ [last] ∧
          e :: before <:+ log := by
  rw [List.suffix_concat_iff]
  constructor
  · rintro (hNil | ⟨before, hEq, hSuffix⟩)
    · cases hNil
    · cases before with
      | nil =>
          rw [List.nil_append, List.cons.injEq] at hEq
          exact Or.inl hEq
      | cons first before =>
          rw [List.cons_append, List.cons.injEq] at hEq
          rcases hEq with ⟨rfl, hLater⟩
          exact Or.inr ⟨before, hLater, hSuffix⟩
  · rintro (⟨rfl, rfl⟩ | ⟨before, rfl, hSuffix⟩)
    · exact Or.inr ⟨[], rfl, List.nil_suffix⟩
    · exact Or.inr ⟨e :: before, rfl, hSuffix⟩

/- A peer as it registered. -/
structure Registration where
  peer : PeerId
  identity : String
  port : UInt16
  deriving DecidableEq

/- The entry of a registration. -/
def Registration.entry
    (r : Registration) : Entry :=
  (.register r.identity r.port, .registered r.peer)

/- The entry of the end of a registration. -/
def departure
    (peer : PeerId) : Entry :=
  (.unregister peer, .unregistered)

/- The registration that an entry of the log is, if any. -/
def registration? : Entry → Option Registration
  | (.register identity port, .registered peer) =>
      some { peer, identity, port }
  | _ => none

/- What an entry of the log makes of the registered peers. -/
def noteRegistration
    (registrations : List Registration) :
    Entry → List Registration
  | (.register identity port, .registered peer) =>
      registrations ++ [{ peer, identity, port }]
  | (.unregister peer, .unregistered) =>
      registrations.filter fun r => r.peer ≠ peer
  | _ => registrations

/- The peers that are registered, in order. -/
def registered
    (log : List Entry) : List Registration :=
  log.foldl noteRegistration []

theorem registered_concat
    (log : List Entry)
    (e : Entry) :
    registered (log ++ [e]) =
      noteRegistration (registered log) e := by
  unfold registered
  rw [List.foldl_append, List.foldl_cons, List.foldl_nil]

/- An entry adds its registration or ends that of a peer. -/
theorem mem_noteRegistration_iff
    {registrations : List Registration}
    {e : Entry}
    {r : Registration} :
    r ∈ noteRegistration registrations e ↔
      r.entry = e ∨
        r ∈ registrations ∧ departure r.peer ≠ e := by
  unfold noteRegistration Registration.entry departure
  split
  · rename_i identity port peer
    rw [List.mem_append, List.mem_singleton]
    constructor
    · rintro (hMem | rfl)
      · exact Or.inr ⟨hMem, by simp⟩
      · exact Or.inl rfl
    · rintro (hEntry | ⟨hMem, -⟩)
      · simp only [Prod.mk.injEq, Operation.register.injEq,
          Reply.registered.injEq] at hEntry
        rcases hEntry with ⟨⟨rfl, rfl⟩, rfl⟩
        exact Or.inr rfl
      · exact Or.inl hMem
  · rename_i peer
    simp only [List.mem_filter, decide_eq_true_eq,
      Prod.mk.injEq, reduceCtorEq, false_and, false_or, ne_eq,
      Operation.unregister.injEq, and_true]
  · rename_i hRegister hUnregister
    constructor
    · intro hMem
      exact Or.inr ⟨hMem, fun hEq => hUnregister _ hEq.symm⟩
    · rintro (hEntry | ⟨hMem, -⟩)
      · exact absurd hEntry.symm (hRegister _ _ _)
      · exact hMem

/- Whether a registration has not ended. -/
def IsRegistered
    (log : List Entry)
    (r : Registration) : Prop :=
  ∃ later,
    r.entry :: later <:+ log ∧ departure r.peer ∉ later

/- A peer is registered until it is unregistered. -/
theorem mem_registered_iff
    {log : List Entry}
    {r : Registration} :
    r ∈ registered log ↔ IsRegistered log r := by
  unfold IsRegistered
  induction log using List.reverseRecOn with
  | nil => simp [registered]
  | append_singleton log e ih =>
      rw [registered_concat, mem_noteRegistration_iff, ih]
      constructor
      · rintro (hEntry | ⟨⟨later, hSuffix, hNot⟩, hLast⟩)
        · exact ⟨[],
            cons_suffix_concat_iff.mpr (Or.inl ⟨hEntry, rfl⟩),
            by simp⟩
        · refine ⟨later ++ [e], cons_suffix_concat_iff.mpr
            (Or.inr ⟨later, rfl, hSuffix⟩), ?_⟩
          intro hMem
          rcases List.mem_append.mp hMem with hMem | hMem
          · exact hNot hMem
          · exact hLast (List.mem_singleton.mp hMem)
      · rintro ⟨later, hSuffix, hNot⟩
        rcases cons_suffix_concat_iff.mp hSuffix with
          ⟨hEntry, -⟩ | ⟨before, rfl, hBefore⟩
        · exact Or.inl hEntry
        · refine Or.inr ⟨⟨before, hBefore, ?_⟩, ?_⟩
          · exact fun hMem =>
              hNot (List.mem_append_left _ hMem)
          · rintro rfl
            exact hNot (by simp)

/- Peers are listed in the order of their registrations. -/
theorem registered_sublist
    (log : List Entry) :
    (registered log).Sublist (log.filterMap registration?) := by
  induction log using List.reverseRecOn with
  | nil => exact List.nil_sublist _
  | append_singleton log e ih =>
      rw [registered_concat, List.filterMap_append]
      unfold noteRegistration
      split
      · exact ih.append (List.Sublist.refl _)
      · exact (List.filter_sublist.trans ih).trans
          (List.sublist_append_left _ _)
      · exact ih.trans (List.sublist_append_left _ _)

end Tracker

end PeerShare

------------------------------------------------------------
-- The Life of a File
------------------------------------------------------------

namespace PeerShare

namespace Tracker

/- The entry of a publication that was accepted. -/
def publication
    (publisher : PeerId)
    (file : FileRecord) : Entry :=
  (.publish publisher file, .published (.ok .accepted))

/- The entry of a removal that succeeded. -/
def removal
    (requester : PeerId)
    (name : String) : Entry :=
  (.remove requester name, .removed .removed)

/- The entry of a report that was taken. -/
def report
    (peer : PeerId)
    (name : String)
    (bitfield : Bytes) : Entry :=
  (.update peer name bitfield, .updated true)

/- Whether an entry begins or ends the life of a file. -/
def Settles
    (name : String)
    (e : Entry) : Prop :=
  (∃ publisher file,
      e = publication publisher file ∧ file.name = name) ∨
    ∃ requester, e = removal requester name

/- Whether every publication of a file has been removed. -/
def IsGone
    (log : List Entry)
    (name : String) : Prop :=
  ∀ publisher file later,
    publication publisher file :: later <:+ log →
      file.name = name →
        ∃ requester, removal requester name ∈ later

/-
  Whether a file under a name was published by a peer, has
  been there since, and `later` is what came after it.
-/
structure IsLife
    (log : List Entry)
    (name : String)
    (publisher : PeerId)
    (file : FileRecord)
    (later : List Entry) : Prop where
  published : publication publisher file :: later <:+ log
  name_eq : file.name = name
  /- No publication or removal of the name came after it. -/
  lasting : ∀ e ∈ later, ¬ Settles name e

variable {log later : List Entry}
variable {name : String}
variable {publisher : PeerId}
variable {file : FileRecord}

theorem isGone_nil
    (name : String) :
    IsGone [] name := by
  intro publisher file later hSuffix
  cases List.suffix_nil.mp hSuffix

/- Another entry leaves a file gone. -/
theorem IsGone.concat
    (h : IsGone log name)
    {e : Entry}
    (hNot : ¬ Settles name e) :
    IsGone (log ++ [e]) name := by
  intro publisher file later hSuffix hName
  rcases cons_suffix_concat_iff.mp hSuffix with
    ⟨hLast, -⟩ | ⟨before, rfl, hBefore⟩
  · exact absurd
      (Or.inl ⟨publisher, file, hLast.symm, hName⟩) hNot
  · rcases h publisher file before hBefore hName with
      ⟨requester, hMem⟩
    exact ⟨requester, List.mem_append_left _ hMem⟩

/- A removal ends the life of a file. -/
theorem isGone_concat_removal
    (log : List Entry)
    (requester : PeerId)
    (name : String) :
    IsGone (log ++ [removal requester name]) name := by
  intro publisher file later hSuffix hName
  rcases cons_suffix_concat_iff.mp hSuffix with
    ⟨hLast, -⟩ | ⟨before, rfl, -⟩
  · simp [publication, removal] at hLast
  · exact ⟨requester, by simp⟩

/- Another entry adds to the life of a file. -/
theorem IsLife.concat
    (h : IsLife log name publisher file later)
    {e : Entry}
    (hNot : ¬ Settles name e) :
    IsLife (log ++ [e]) name publisher file
      (later ++ [e]) where
  published :=
    cons_suffix_concat_iff.mpr
      (Or.inr ⟨later, rfl, h.published⟩)
  name_eq := h.name_eq
  lasting := by
    intro other hMem
    rcases List.mem_append.mp hMem with hMem | hMem
    · exact h.lasting other hMem
    · rw [List.mem_singleton.mp hMem]
      exact hNot

/- A publication begins the life of a file. -/
theorem isLife_concat_publication
    (log : List Entry)
    (publisher : PeerId)
    (file : FileRecord) :
    IsLife (log ++ [publication publisher file]) file.name
      publisher file [] where
  published := cons_suffix_concat_iff.mpr (Or.inl ⟨rfl, rfl⟩)
  name_eq := rfl
  lasting := by
    intro e hMem
    cases hMem

/- A file that lives is not gone. -/
theorem IsLife.not_isGone
    (h : IsLife log name publisher file later) :
    ¬ IsGone log name := by
  intro hGone
  rcases hGone publisher file later h.published h.name_eq with
    ⟨requester, hMem⟩
  exact h.lasting _ hMem (Or.inr ⟨requester, rfl⟩)

end Tracker

end PeerShare

------------------------------------------------------------
-- Reports
------------------------------------------------------------

namespace PeerShare

namespace Tracker

/- What an entry tells that a peer holds of a file. -/
def report?
    (peer : PeerId)
    (name : String) : Entry → Option Bytes
  | (.update reporter reported bitfield, .updated true) =>
      if reporter = peer ∧ reported = name then some bitfield
      else none
  | _ => none

/- Whether a peer did something for a file. -/
def Acts
    (peer : PeerId)
    (e : Entry) : Prop :=
  (∃ file, e = publication peer file) ∨
    ∃ name bitfield, e = report peer name bitfield

/- What a peer told last of a file, if it has told. -/
def lastReport?
    (peer : PeerId)
    (name : String)
    (later : List Entry) : Option Bytes :=
  (later.filterMap (report? peer name)).getLast?

/-
  Whether a peer holds a chunk of a file, so far as is
  known: those of its last report, or all chunks if it is
  the publisher and has not reported.
-/
def Holds
    (publisher : PeerId)
    (file : FileRecord)
    (later : List Entry)
    (peer : PeerId)
    (index : Nat) : Prop :=
  index < file.chunkCount ∧
    match lastReport? peer file.name later with
    | some bitfield => Packing.HasBit bitfield index
    | none => peer = publisher

/-
  Whether just the chunks that a peer holds are noted of it,
  in a set of chunks of the file.
-/
structure IsNoted
    (publisher : PeerId)
    (file : FileRecord)
    (later : List Entry)
    (peer : PeerId)
    (noted : Option ChunkSet) : Prop where
  chunkCount_eq :
    ∀ chunks, noted = some chunks →
      chunks.chunkCount = file.chunkCount
  has_iff :
    ∀ i,
      (∃ chunks, noted = some chunks ∧ chunks.has i = true) ↔
        Holds publisher file later peer i

variable {name : String}
variable {publisher peer : PeerId}
variable {file : FileRecord}
variable {later : List Entry}
variable {e : Entry}

theorem report?_eq_some_iff
    {bitfield : Bytes} :
    report? peer name e = some bitfield ↔
      e = report peer name bitfield := by
  unfold report? report
  split
  · rename_i reporter reported told
    simp only [Option.ite_none_right_eq_some,
      Option.some.injEq, Prod.mk.injEq,
      Operation.update.injEq, and_true, and_assoc]
  · rename_i hNot
    simp only [reduceCtorEq, false_iff]
    rintro rfl
    exact hNot _ _ _ rfl

/- The last report counts, and other entries do not. -/
theorem lastReport?_concat
    (peer : PeerId)
    (name : String)
    (later : List Entry)
    (e : Entry) :
    lastReport? peer name (later ++ [e]) =
      (report? peer name e).or
        (lastReport? peer name later) := by
  unfold lastReport?
  rw [List.filterMap_append, List.getLast?_append]
  cases hReport : report? peer name e <;>
    simp [hReport]

theorem holds_concat_of_report?_eq_none
    (h : report? peer file.name e = none)
    (index : Nat) :
    Holds publisher file (later ++ [e]) peer index ↔
      Holds publisher file later peer index := by
  unfold Holds
  rw [lastReport?_concat, h, Option.none_or]

/- After a report its bits count, if there are such chunks. -/
theorem holds_concat_report
    (publisher peer : PeerId)
    (file : FileRecord)
    (later : List Entry)
    (bitfield : Bytes)
    (index : Nat) :
    Holds publisher file
        (later ++ [report peer file.name bitfield]) peer
        index ↔
      index < file.chunkCount ∧
        Packing.HasBit bitfield index := by
  have hReport := report?_eq_some_iff.mpr
    (Eq.refl (report peer file.name bitfield))
  unfold Holds
  rw [lastReport?_concat, hReport, Option.some_or]

/- Of a peer that did nothing for a file nothing is known. -/
theorem not_holds
    (h :
      ∀ e ∈ publication publisher file :: later,
        ¬ Acts peer e)
    (index : Nat) :
    ¬ Holds publisher file later peer index := by
  have hPublisher : peer ≠ publisher := by
    rintro rfl
    exact h _ List.mem_cons_self (Or.inl ⟨file, rfl⟩)
  have hNone : lastReport? peer file.name later = none := by
    unfold lastReport?
    rw [List.getLast?_eq_none_iff,
      List.filterMap_eq_nil_iff]
    intro e hMem
    rw [Option.eq_none_iff_forall_ne_some]
    intro bitfield hReport
    rw [report?_eq_some_iff] at hReport
    exact h e (List.mem_cons_of_mem _ hMem)
      (Or.inr ⟨file.name, bitfield, hReport⟩)
  unfold Holds
  rw [hNone]
  exact fun hHolds => hPublisher hHolds.2

theorem isNoted_none
    (h : ∀ i, ¬ Holds publisher file later peer i) :
    IsNoted publisher file later peer none where
  chunkCount_eq := by
    rintro chunks ⟨⟩
  has_iff i := by
    refine iff_of_false ?_ (h i)
    rintro ⟨chunks, ⟨⟩, -⟩

theorem isNoted_some
    {chunks : ChunkSet}
    (hCount : chunks.chunkCount = file.chunkCount)
    (hHas :
      ∀ i,
        chunks.has i = true ↔
          Holds publisher file later peer i) :
    IsNoted publisher file later peer (some chunks) where
  chunkCount_eq := by
    rintro _ ⟨⟩
    exact hCount
  has_iff i := by
    rw [← hHas]
    constructor
    · rintro ⟨_, ⟨⟩, hChunk⟩
      exact hChunk
    · exact fun hChunk => ⟨chunks, rfl, hChunk⟩

/- Another entry changes nothing of what a peer holds. -/
theorem IsNoted.concat
    {noted : Option ChunkSet}
    (h : IsNoted publisher file later peer noted)
    (hReport : report? peer file.name e = none) :
    IsNoted publisher file (later ++ [e]) peer noted where
  chunkCount_eq := h.chunkCount_eq
  has_iff i :=
    (h.has_iff i).trans
      (holds_concat_of_report?_eq_none hReport i).symm

end Tracker

end PeerShare

------------------------------------------------------------
-- Idle Entries
------------------------------------------------------------

namespace PeerShare

namespace Tracker

variable {e : Entry}

theorem noteRegistration_of_isIdle
    (h : e.2.isIdle = true)
    (registrations : List Registration) :
    noteRegistration registrations e = registrations := by
  unfold noteRegistration
  split
  · cases h
  · cases h
  · rfl

theorem not_settles_of_isIdle
    (h : e.2.isIdle = true)
    (name : String) :
    ¬ Settles name e := by
  rintro (⟨publisher, file, rfl, -⟩ | ⟨requester, rfl⟩)
  · cases h
  · cases h

theorem not_acts_of_isIdle
    (h : e.2.isIdle = true)
    (peer : PeerId) :
    ¬ Acts peer e := by
  rintro (⟨file, rfl⟩ | ⟨name, bitfield, rfl⟩)
  · cases h
  · cases h

/- Who does nothing reports on nothing. -/
theorem report?_of_not_acts
    {peer : PeerId}
    (h : ¬ Acts peer e)
    (name : String) :
    report? peer name e = none := by
  rw [Option.eq_none_iff_forall_ne_some]
  intro bitfield hReport
  rw [report?_eq_some_iff] at hReport
  exact h (Or.inr ⟨name, bitfield, hReport⟩)

end Tracker

end PeerShare

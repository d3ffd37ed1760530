import PeerShare.Proofs.Disk.Writing
import PeerShare.Proofs.Fetch.Progress

/-
  What the operations on all downloads change.

  Every operation changes the transfer of one file, and a
  pass changes each transfer by a pass of its own.

  Key definitions include:
    * `Transfer.Arrives`
    * `Downloads.arrive`
    * `Downloads.tickEntry`

  Key theorems include:
    * `Downloads.transfer?_set`
    * `Downloads.exists_arrives`
    * `Downloads.exists_before_arrive`
    * `Downloads.transfer?_tick`
    * `Downloads.exists_before_tick`
    * `Downloads.requests_tick`
-/

------------------------------------------------------------
-- Single Files
------------------------------------------------------------

namespace PeerShare

namespace Downloads

variable {d d' : Downloads}
variable {name : String}

theorem transfer?_eq_some_iff
    {t : Transfer} :
    d.transfer? name = some t ↔
      d.files.get? name = some (.fetching t) := by
  unfold transfer?
  cases d.files.get? name with
  | none => simp
  | some download =>
      cases download with
      | awaiting => simp
      | fetching t' => simp

/- Two downloads with the same entry have the same transfer. -/
theorem transfer?_congr
    (h : d.files.get? name = d'.files.get? name) :
    d.transfer? name = d'.transfer? name := by
  unfold transfer?
  rw [h]

theorem transfer?_set
    (d : Downloads)
    (name : String)
    (t : Transfer)
    (other : String) :
    (d.set name t).transfer? other =
      if other = name then some t else d.transfer? other := by
  by_cases hOther : other = name
  · rw [if_pos hOther, hOther]
    exact transfer?_eq_some_iff.mpr (Table.get?_insert_self _ _ _)
  · rw [if_neg hOther]
    exact transfer?_congr (Table.get?_insert_of_ne _ _ hOther)

theorem transfer?_discard
    (d : Downloads)
    (name other : String) :
    (d.discard name).2.transfer? other =
      if other = name then none else d.transfer? other := by
  unfold discard
  dsimp only
  by_cases hOther : other = name
  · rw [if_pos hOther, hOther]
    unfold transfer?
    dsimp only
    rw [Table.get?_erase_self]
  · rw [if_neg hOther]
    exact transfer?_congr (Table.get?_erase_of_ne _ hOther)

/- A request starts no transfer and ends none. -/
theorem transfer?_request
    (d : Downloads)
    (name : String)
    (now : Moment)
    (other : String) :
    (d.request name now).2.transfer? other =
      d.transfer? other := by
  unfold request
  cases hContains : d.contains name with
  | true => rfl
  | false =>
      rw [if_neg Bool.false_ne_true]
      by_cases hOther : other = name
      · unfold contains Table.contains at hContains
        have hNone : d.files.get? name = none :=
          Option.not_isSome_iff_eq_none.mp (by simp [hContains])
        rw [hOther]
        unfold transfer?
        dsimp only
        rw [Table.get?_insert_self, hNone]
      · exact transfer?_congr
          (Table.get?_insert_of_ne _ _ hOther)

/- A file that is awaited is not fetched. -/
theorem transfer?_of_isAwaiting
    (h : d.isAwaiting name = true) :
    d.transfer? name = none := by
  unfold isAwaiting at h
  unfold transfer?
  cases hGet : d.files.get? name with
  | none => rfl
  | some download =>
      cases download with
      | awaiting => rfl
      | fetching t =>
          rw [hGet] at h
          cases h

/- A transfer starts just if its file is awaited. -/
theorem transfer?_start
    (d : Downloads)
    (t : Transfer)
    (other : String) :
    (d.start t).2.transfer? other =
      if other = t.name ∧ d.isAwaiting t.name = true then some t
      else d.transfer? other := by
  unfold start
  cases hAwaiting : d.isAwaiting t.name with
  | true =>
      rw [if_pos rfl]
      dsimp only
      rw [transfer?_set]
      simp
  | false =>
      rw [if_neg Bool.false_ne_true]
      simp

theorem transfer?_applyPeers
    (d : Downloads)
    (name : String)
    (peers : List (Endpoint × Bytes))
    (other : String) :
    (d.applyPeers name peers).2.transfer? other =
      if other = name then
        (d.transfer? name).map (·.applyPeers peers)
      else d.transfer? other := by
  unfold applyPeers
  cases hGet : d.transfer? name with
  | none =>
      dsimp only
      split
      · rename_i hOther
        rw [hOther, hGet]
        rfl
      · rfl
  | some t => exact transfer?_set d name _ other

/- Noting peers changes no progress. -/
theorem exists_before_applyPeers
    {peers : List (Endpoint × Bytes)}
    {other : String}
    {t' : Transfer}
    (h :
      (d.applyPeers name peers).2.transfer? other =
        some t') :
    ∃ t, d.transfer? other = some t ∧ t.SameProgress t' := by
  rw [transfer?_applyPeers] at h
  split at h
  · rename_i hOther
    rw [Option.map_eq_some_iff] at h
    rcases h with ⟨t, hGet, rfl⟩
    rw [hOther]
    exact ⟨t, hGet, t.sameProgress_applyPeers peers⟩
  · exact ⟨t', h, .refl t'⟩

theorem transfer?_markPersisted
    (d : Downloads)
    (name : String)
    (index : UInt16)
    (other : String) :
    (d.markPersisted name index).transfer? other =
      if other = name then
        (d.transfer? name).map (·.markPersisted index)
      else d.transfer? other := by
  unfold markPersisted
  cases hGet : d.transfer? name with
  | none =>
      dsimp only
      split
      · rename_i hOther
        rw [hOther, hGet]
        rfl
      · rfl
  | some t => exact transfer?_set d name _ other

/- A chunk is noted in the transfer of its file, if at all. -/
theorem exists_before_markPersisted
    {index : UInt16}
    {other : String}
    {t' : Transfer}
    (h :
      (d.markPersisted name index).transfer? other = some t') :
    ∃ t,
      d.transfer? other = some t ∧
        (t' = t ∨ t' = t.markPersisted index) := by
  rw [transfer?_markPersisted] at h
  split at h
  · rename_i hOther
    rw [Option.map_eq_some_iff] at h
    rcases h with ⟨t, hGet, rfl⟩
    rw [hOther]
    exact ⟨t, hGet, Or.inr rfl⟩
  · exact ⟨t', h, Or.inl rfl⟩

/- How a chunk of a file that is fetched is judged. -/
theorem accept_eq
    {t : Transfer}
    (h : d.transfer? name = some t)
    (index : UInt16)
    (data : Bytes)
    (sender : Endpoint)
    (now : Moment)
    (log : TransferLog) :
    d.accept name index data sender now log =
      ((t.accept index data sender now log).1,
        d.set name (t.accept index data sender now log).2.1,
        (t.accept index data sender now log).2.2) := by
  unfold accept
  rw [h]

/- Chunks of other files are not known. -/
theorem accept_eq_unknown
    (h : d.transfer? name = none)
    (index : UInt16)
    (data : Bytes)
    (sender : Endpoint)
    (now : Moment)
    (log : TransferLog) :
    d.accept name index data sender now log =
      (.unknown, d, log) := by
  unfold accept
  rw [h]

/- When a chunk is taken out of a queue. -/
theorem perform_eq_some_iff
    {position : Nat}
    {index : UInt16}
    {disk disk' : Disk} :
    d.perform name position disk = some (index, d', disk') ↔
      ∃ t w w',
        d.transfer? name = some t ∧ t.writer = some w ∧
          w.perform position disk = some (index, w', disk') ∧
          d' = d.set name (t.withWriter w') := by
  unfold perform Transfer.perform
  cases hGet : d.transfer? name with
  | none => simp
  | some t =>
      dsimp only
      cases hWriter : t.writer with
      | none => simp [hWriter]
      | some w =>
          dsimp only
          cases hPerform : w.perform position disk with
          | none => simp [hWriter, hPerform]
          | some result =>
              rcases result with ⟨i, v, e⟩
              constructor
              · intro h
                cases h
                exact ⟨t, w, v, rfl, hWriter, hPerform, rfl⟩
              · rintro ⟨t', w', v', hT, hW, hP, rfl⟩
                cases hT
                rw [hWriter] at hW
                cases hW
                rw [hPerform] at hP
                cases hP
                rfl

end Downloads

end PeerShare

------------------------------------------------------------
-- Arriving Chunks
------------------------------------------------------------

namespace PeerShare

/-
  What becomes of a transfer when a chunk arrives: the chunk
  is judged, and handed to the writer if it is accepted and
  there is one, which takes or refuses it.
-/
inductive Transfer.Arrives
    (t : Transfer)
    (index : UInt16)
    (data : Bytes) :
    Verdict → Transfer → Prop where
  | judged
      {verdict : Verdict}
      {t' : Transfer}
      (hJudged : t.Judged index data verdict t')
      (hVerdict : verdict ≠ .accepted true) :
      Arrives t index data verdict t'
  | taken
      {t' : Transfer}
      {w w' : ChunkWriter}
      (hJudged : t.Judged index data (.accepted true) t')
      (hWriter : t'.writer = some w)
      (hEnqueue : w.enqueue index data = .ok w') :
      Arrives t index data (.accepted true) (t'.withWriter w')
  | refused
      {t' : Transfer}
      {w : ChunkWriter}
      {e : StorageError}
      (hJudged : t.Judged index data (.accepted true) t')
      (hWriter : t'.writer = some w)
      (hEnqueue : w.enqueue index data = .error e) :
      Arrives t index data (.accepted true) t'

theorem Transfer.Continues.of_arrives
    {t t' : Transfer}
    {index : UInt16}
    {data : Bytes}
    {verdict : Verdict}
    (h : t.Arrives index data verdict t') :
    t.Continues t' := by
  cases h with
  | judged hJudged => exact of_judged hJudged
  | taken hJudged hWriter hEnqueue =>
      apply (of_judged hJudged).trans
      apply withWriter hWriter
      rcases ChunkWriter.enqueue_eq_ok_iff.mp hEnqueue with
        ⟨-, rfl⟩
      rfl
  | refused hJudged => exact of_judged hJudged

namespace Downloads

/-
  The downloads after a chunk has arrived, which is handed
  to the writer of its file if it is good.
-/
def arrive
    (d : Downloads)
    (name : String)
    (index : UInt16)
    (data : Bytes)
    (sender : Endpoint)
    (now : Moment)
    (log : TransferLog) : Downloads :=
  match d.accept name index data sender now log with
  | (.accepted true, d, _) =>
      match d.enqueue name index data with
      | .ok d => d
      | .error _ => d
  | (_, d, _) => d

theorem arrive_of_none
    {d : Downloads}
    {name : String}
    (h : d.transfer? name = none)
    (index : UInt16)
    (data : Bytes)
    (sender : Endpoint)
    (now : Moment)
    (log : TransferLog) :
    d.arrive name index data sender now log = d := by
  unfold arrive
  rw [accept_eq_unknown h]

/- Only the transfer of its file notices a chunk. -/
theorem exists_arrives
    {d : Downloads}
    {name : String}
    {t : Transfer}
    (h : d.transfer? name = some t)
    (index : UInt16)
    (data : Bytes)
    (sender : Endpoint)
    (now : Moment)
    (log : TransferLog) :
    ∃ t',
      t.Arrives index data
          (t.accept index data sender now log).1 t' ∧
        ∀ other,
          (d.arrive name index data sender now log).transfer?
              other =
            if other = name then some t'
            else d.transfer? other := by
  have hJudged := t.judged_accept index data sender now log
  unfold arrive
  rw [accept_eq h]
  generalize t.accept index data sender now log = judged
    at hJudged ⊢
  rcases judged with ⟨verdict, t', rest⟩
  dsimp only at hJudged ⊢
  by_cases hVerdict : verdict = .accepted true
  · subst hVerdict
    have hSome := hJudged.isSome_writer rfl
    rw [← hJudged.writer_eq, Option.isSome_iff_exists] at hSome
    rcases hSome with ⟨w, hWriter⟩
    have hSet : (d.set name t').transfer? name = some t' := by
      rw [transfer?_set, if_pos rfl]
    dsimp only
    unfold enqueue Transfer.enqueue
    rw [hSet]
    dsimp only
    rw [hWriter]
    dsimp only
    cases hEnqueue : w.enqueue index data with
    | error e =>
        exact ⟨t', .refused hJudged hWriter hEnqueue,
          transfer?_set d name t'⟩
    | ok w' =>
        refine ⟨t'.withWriter w',
          .taken hJudged hWriter hEnqueue, ?_⟩
        intro other
        dsimp only
        rw [transfer?_set, transfer?_set]
        split <;> rfl
  · refine ⟨t', .judged hJudged hVerdict, ?_⟩
    intro other
    split
    · rename_i hEq
      cases hEq
      exact absurd rfl hVerdict
    · rename_i hEq
      cases hEq
      exact transfer?_set d name t' other

/- What became of the transfers when a chunk arrived. -/
theorem exists_before_arrive
    {d : Downloads}
    {name other : String}
    {index : UInt16}
    {data : Bytes}
    {sender : Endpoint}
    {now : Moment}
    {log : TransferLog}
    {t' : Transfer}
    (h :
      (d.arrive name index data sender now log).transfer?
        other = some t') :
    ∃ t,
      d.transfer? other = some t ∧
        (t' = t ∨
          t.Arrives index data
            (t.accept index data sender now log).1 t') := by
  cases hGet : d.transfer? name with
  | none =>
      rw [arrive_of_none hGet] at h
      exact ⟨t', h, Or.inl rfl⟩
  | some t =>
      rcases exists_arrives hGet index data sender now log with
        ⟨t'', hArrives, hAll⟩
      rw [hAll] at h
      split at h
      · rename_i hOther
        cases h
        rw [hOther]
        exact ⟨t, hGet, Or.inr hArrives⟩
      · exact ⟨t', h, Or.inl rfl⟩

end Downloads

end PeerShare

------------------------------------------------------------
-- Passes
------------------------------------------------------------

namespace PeerShare

namespace Downloads

/- One step of a pass: the pass over one download. -/
def tickEntry
    (now : Moment)
    (log : TransferLog)
    (state : Pass × Downloads)
    (entry : String × Download) :
    Pass × Downloads :=
  (state.1.append (entry.2.tick now log).1,
    state.2.settle entry.1 (entry.2.tick now log).2)

theorem tick_eq_foldl
    (d : Downloads)
    (now : Moment)
    (log : TransferLog) :
    d.tick now log =
      d.files.entries.foldl (tickEntry now log)
        (Pass.nothing, d) := rfl

theorem get?_settle_self
    (d : Downloads)
    (name : String)
    (rest : Option Download) :
    (d.settle name rest).files.get? name = rest := by
  cases rest with
  | none => exact Table.get?_erase_self _ _
  | some download => exact Table.get?_insert_self _ _ _

theorem get?_settle_of_ne
    (d : Downloads)
    {name other : String}
    (rest : Option Download)
    (h : other ≠ name) :
    (d.settle name rest).files.get? other =
      d.files.get? other := by
  cases rest with
  | none => exact Table.get?_erase_of_ne _ h
  | some download => exact Table.get?_insert_of_ne _ _ h

/- Steps leave the entries of other files alone. -/
theorem get?_foldl_of_not_mem
    {now : Moment}
    {log : TransferLog}
    {entries : List (String × Download)}
    {name : String}
    (h : name ∉ entries.map Prod.fst)
    (state : Pass × Downloads) :
    (entries.foldl (tickEntry now log) state).2.files.get?
        name = state.2.files.get? name := by
  induction entries generalizing state with
  | nil => rfl
  | cons entry entries ih =>
      rw [List.map_cons, List.mem_cons, not_or] at h
      rw [List.foldl_cons, ih h.2]
      exact get?_settle_of_ne _ _ h.1

/- Every entry is treated once, by a pass of its own. -/
theorem get?_foldl_of_mem
    {now : Moment}
    {log : TransferLog}
    {entries : List (String × Download)}
    {name : String}
    {download : Download}
    (hNodup : (entries.map Prod.fst).Nodup)
    (h : (name, download) ∈ entries)
    (state : Pass × Downloads) :
    (entries.foldl (tickEntry now log) state).2.files.get?
        name = (download.tick now log).2 := by
  induction entries generalizing state with
  | nil => cases h
  | cons entry entries ih =>
      rw [List.map_cons, List.nodup_cons] at hNodup
      rw [List.foldl_cons]
      rcases List.mem_cons.mp h with rfl | hRest
      · rw [get?_foldl_of_not_mem hNodup.1]
        exact get?_settle_self _ _ _
      · exact ih hNodup.2 hRest _

theorem get?_tick
    (d : Downloads)
    (now : Moment)
    (log : TransferLog)
    (name : String) :
    (d.tick now log).2.files.get? name =
      (d.files.get? name).bind fun download =>
        (download.tick now log).2 := by
  rw [tick_eq_foldl]
  cases hGet : d.files.get? name with
  | none =>
      rw [get?_foldl_of_not_mem, hGet]
      · rfl
      · intro hMem
        rcases Table.mem_keys_iff.mp hMem with ⟨v, hSome⟩
        rw [hGet] at hSome
        cases hSome
  | some download =>
      exact get?_foldl_of_mem (Table.nodup_keys d.files)
        (Table.mem_entries_iff.mpr hGet) _

/- A pass over all downloads is a pass over each transfer. -/
theorem transfer?_tick
    (d : Downloads)
    (now : Moment)
    (log : TransferLog)
    (name : String) :
    (d.tick now log).2.transfer? name =
      (d.transfer? name).bind fun t => (t.tick now log).2 := by
  unfold transfer?
  rw [get?_tick]
  cases d.files.get? name with
  | none => rfl
  | some download =>
      cases download with
      | awaiting => rfl
      | fetching t =>
          unfold Download.tick
          dsimp only [Option.bind_some]
          cases (t.tick now log).2 with
          | none => rfl
          | some t' => rfl

/- What outlasts a pass has been there, not complete. -/
theorem exists_before_tick
    {d : Downloads}
    {now : Moment}
    {log : TransferLog}
    {name : String}
    {t' : Transfer}
    (h : (d.tick now log).2.transfer? name = some t') :
    ∃ t,
      d.transfer? name = some t ∧
        t.isComplete = false ∧ t.SameProgress t' := by
  rw [transfer?_tick, Option.bind_eq_some_iff] at h
  rcases h with ⟨t, hGet, hTick⟩
  exact ⟨t, hGet, Transfer.sameProgress_tick hTick⟩

/- What the steps of a pass decide together. -/
theorem foldl_tickEntry_fst
    (now : Moment)
    (log : TransferLog)
    (entries : List (String × Download))
    (state : Pass × Downloads) :
    (entries.foldl (tickEntry now log) state).1 =
      { messages :=
          state.1.messages ++
            entries.flatMap fun entry =>
              (entry.2.tick now log).1.messages
        requests :=
          state.1.requests ++
            entries.flatMap fun entry =>
              (entry.2.tick now log).1.requests
        completed :=
          state.1.completed ++
            entries.flatMap fun entry =>
              (entry.2.tick now log).1.completed } := by
  induction entries generalizing state with
  | nil => simp
  | cons entry entries ih =>
      rw [List.foldl_cons, ih]
      unfold tickEntry Pass.append
      simp

theorem requests_tick
    (d : Downloads)
    (now : Moment)
    (log : TransferLog) :
    (d.tick now log).1.requests =
      d.files.entries.flatMap fun entry =>
        (entry.2.tick now log).1.requests := by
  rw [tick_eq_foldl, foldl_tickEntry_fst]
  exact List.nil_append _

/- Messages are those of some transfer. -/
theorem exists_of_mem_messages_tick
    {d : Downloads}
    {now : Moment}
    {log : TransferLog}
    {m : Wire.Message}
    (h : m ∈ (d.tick now log).1.messages) :
    ∃ name t,
      d.transfer? name = some t ∧
        m ∈ (t.tick now log).1.messages := by
  rw [tick_eq_foldl, foldl_tickEntry_fst] at h
  rcases List.mem_flatMap.mp h with
    ⟨⟨name, download⟩, hEntry, hMem⟩
  cases download with
  | awaiting => cases hMem
  | fetching t =>
      have hGet := Table.mem_entries_iff.mp hEntry
      exact ⟨name, t, transfer?_eq_some_iff.mpr hGet, hMem⟩

/- Complete files are those of some transfer. -/
theorem exists_of_mem_completed_tick
    {d : Downloads}
    {now : Moment}
    {log : TransferLog}
    {c : Completed}
    (h : c ∈ (d.tick now log).1.completed) :
    ∃ name t,
      d.transfer? name = some t ∧
        c ∈ (t.tick now log).1.completed := by
  rw [tick_eq_foldl, foldl_tickEntry_fst] at h
  rcases List.mem_flatMap.mp h with
    ⟨⟨name, download⟩, hEntry, hMem⟩
  cases download with
  | awaiting => cases hMem
  | fetching t =>
      have hGet := Table.mem_entries_iff.mp hEntry
      exact ⟨name, t, transfer?_eq_some_iff.mpr hGet, hMem⟩

end Downloads

end PeerShare

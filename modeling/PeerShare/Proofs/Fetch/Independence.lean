import PeerShare.Proofs.Fetch.Lifetime

/-
  Files do not disturb each other in a pass.

  A pass visits the files in any order.  It changes each
  transfer in its place, gathers what it decides in common
  lists, and removes the complete files after the last
  visit.  Whatever the order is, it decides for each file
  what a pass over this file alone decides, and leaves of it
  what such a pass leaves.

  Key definitions include:
    * `Pass.concat`
    * `Pass.about`
    * `Downloads.only`
    * `Downloads.Sweep`
    * `Downloads.tickIn`

  Key theorems include:
    * `Pass.about_concat`
    * `Transfer.tick_eq_visit`
    * `Downloads.Sweep.Visited.visit`
    * `Downloads.Sweep.HandedOut.handOut`
    * `Downloads.handedOut_tickIn`
    * `Downloads.tick_eq_tickIn`
    * `Downloads.tick_independent`
-/

------------------------------------------------------------
-- Passes in Sequence
------------------------------------------------------------

namespace PeerShare

namespace Pass

/- What some passes decide, one after another. -/
def concat : List Pass → Pass
  | [] => nothing
  | p :: ps => p.append (concat ps)

/- What a pass decides about one file. -/
def about
    (p : Pass)
    (name : String) : Pass where
  messages := p.messages.filter (·.fileName? = some name)
  requests := p.requests.filter (·.name = name)
  completed :=
    p.completed.filter (·.file.record.name = name)

/- What a pass decides before it hands out files. -/
def withoutCompleted
    (p : Pass) : Pass :=
  { p with completed := [] }

theorem nothing_append
    (p : Pass) :
    nothing.append p = p := rfl

theorem append_nothing
    (p : Pass) :
    p.append nothing = p := by
  rcases p with ⟨messages, requests, completed⟩
  simp [append, nothing]

/- What some passes decide is what each of them decides. -/
theorem concat_eq
    (ps : List Pass) :
    concat ps =
      { messages := ps.flatMap (·.messages)
        requests := ps.flatMap (·.requests)
        completed := ps.flatMap (·.completed) } := by
  induction ps with
  | nil => rfl
  | cons p ps ih =>
      rw [concat, ih]
      rfl

theorem concat_append
    (ps qs : List Pass) :
    concat (ps ++ qs) = (concat ps).append (concat qs) := by
  rw [concat_eq, concat_eq, concat_eq, List.flatMap_append,
    List.flatMap_append, List.flatMap_append]
  rfl

theorem concat_singleton
    (p : Pass) :
    concat [p] = p :=
  p.append_nothing

theorem about_append
    (p q : Pass)
    (name : String) :
    (p.append q).about name =
      (p.about name).append (q.about name) := by
  simp [about, append, List.filter_append]

/- Of passes about different files one is about each file. -/
theorem about_concat
    {own : String → Pass}
    {name : String}
    (hOwn :
      ∀ other,
        (own other).about name =
          if other = name then own name else nothing)
    {order : List String}
    (hNodup : order.Nodup) :
    (concat (order.map own)).about name =
      if name ∈ order then own name else nothing := by
  induction order with
  | nil => rfl
  | cons first order ih =>
      rw [List.nodup_cons] at hNodup
      rw [List.map_cons, concat, about_append, hOwn,
        ih hNodup.2]
      by_cases hFirst : first = name
      · subst hFirst
        rw [if_pos rfl, if_neg hNodup.1,
          if_pos List.mem_cons_self, append_nothing]
      · have hMem :
            name ∈ first :: order ↔ name ∈ order := by
          rw [List.mem_cons]
          exact or_iff_right (Ne.symm hFirst)
        rw [if_neg hFirst, nothing_append]
        simp only [hMem]

end Pass

end PeerShare

------------------------------------------------------------
-- Single Downloads
------------------------------------------------------------

namespace PeerShare

/- A list in which all or none are to be kept. -/
theorem filter_eq_of_forall
    {γ : Type}
    {xs : List γ}
    {keeps : γ → Bool}
    {all : Prop}
    [Decidable all]
    (h : ∀ x ∈ xs, keeps x = decide all) :
    xs.filter keeps = if all then xs else [] := by
  split
  · rename_i hAll
    apply List.filter_eq_self.mpr
    intro x hx
    rw [h x hx]
    exact decide_eq_true hAll
  · rename_i hNone
    apply List.filter_eq_nil_iff.mpr
    intro x hx
    rw [h x hx]
    simpa using hNone

/- What a pass decides about a transfer bears its name. -/
theorem Transfer.about_tick
    (t : Transfer)
    (now : Moment)
    (log : TransferLog)
    (name : String) :
    (t.tick now log).1.about name =
      if t.name = name then (t.tick now log).1
      else Pass.nothing := by
  have hMessages :
      ∀ m ∈ (t.tick now log).1.messages,
        decide (m.fileName? = some name) =
          decide (t.name = name) := by
    intro m hm
    rw [fileName?_of_mem_messages_tick hm]
    simp only [Option.some.injEq]
  have hRequests :
      ∀ r ∈ (t.tick now log).1.requests,
        decide (r.name = name) = decide (t.name = name) := by
    intro r hr
    rw [(name_of_mem_requests_tick hr).2]
  have hCompleted :
      ∀ c ∈ (t.tick now log).1.completed,
        decide (c.file.record.name = name) =
          decide (t.name = name) := by
    intro c hc
    rw [(mem_completed_tick hc).2.1]
    rfl
  unfold Pass.about
  rw [filter_eq_of_forall hMessages,
    filter_eq_of_forall hRequests,
    filter_eq_of_forall hCompleted]
  split <;> rfl

namespace Downloads

variable {d : Downloads}
variable {name : String}
variable {t : Transfer}
variable {now : Moment}
variable {log : TransferLog}

/- Downloads with at most the entry of one file. -/
def only
    (d : Downloads)
    (name : String) : Downloads :=
  match d.files.get? name with
  | none => empty
  | some download =>
      { files := Table.empty.insert name download }

/- What a pass over one file alone decides about it. -/
def own
    (d : Downloads)
    (now : Moment)
    (log : TransferLog)
    (name : String) : Pass :=
  ((d.only name).tick now log).1

theorem get?_only
    (d : Downloads)
    (name : String) :
    (d.only name).files.get? name = d.files.get? name := by
  unfold only
  cases hGet : d.files.get? name with
  | none => rfl
  | some download => exact Table.get?_insert_self _ _ _

theorem own_of_none
    (h : d.files.get? name = none) :
    d.own now log name = Pass.nothing := by
  unfold own only
  rw [h]
  rfl

theorem own_of_some
    {download : Download}
    (h : d.files.get? name = some download) :
    d.own now log name = (download.tick now log).1 := by
  unfold own only
  rw [h]
  rfl

theorem own_of_transfer?
    (h : d.transfer? name = some t) :
    d.own now log name = (t.tick now log).1 :=
  own_of_some (transfer?_eq_some_iff.mp h)

/- Nothing is decided about files that are not fetched. -/
theorem own_of_transfer?_eq_none
    (h : d.transfer? name = none) :
    d.own now log name = Pass.nothing := by
  cases hGet : d.files.get? name with
  | none => exact own_of_none hGet
  | some download =>
      rw [own_of_some hGet]
      cases download with
      | awaiting => rfl
      | fetching t =>
          rw [transfer?_eq_some_iff.mpr hGet] at h
          cases h

theorem get?_tick_only
    (d : Downloads)
    (now : Moment)
    (log : TransferLog)
    (name : String) :
    ((d.only name).tick now log).2.files.get? name =
      (d.files.get? name).bind fun download =>
        (download.tick now log).2 := by
  rw [get?_tick, get?_only]

/- In order of names a pass is one over each file. -/
theorem tick_fst
    (d : Downloads)
    (now : Moment)
    (log : TransferLog) :
    (d.tick now log).1 =
      Pass.concat (d.files.keys.map (d.own now log)) := by
  have hOwn :
      d.files.keys.map (d.own now log) =
        d.files.entries.map fun entry =>
          (entry.2.tick now log).1 := by
    unfold Table.keys
    rw [List.map_map]
    apply List.map_congr_left
    rintro ⟨name, download⟩ hEntry
    exact own_of_some (Table.mem_entries_iff.mp hEntry)
  rw [tick_eq_foldl, foldl_tickEntry_fst, hOwn,
    Pass.concat_eq, List.flatMap_map, List.flatMap_map,
    List.flatMap_map]
  rfl

/- What a pass decides about a file bears its name. -/
theorem about_own
    (hNames :
      ∀ other u, d.transfer? other = some u → u.name = other)
    (name other : String) :
    (d.own now log other).about name =
      if other = name then d.own now log name
      else Pass.nothing := by
  cases hTransfer : d.transfer? other with
  | none =>
      have hNone : d.own now log other = Pass.nothing :=
        own_of_transfer?_eq_none hTransfer
      rw [hNone]
      split
      · rename_i hOther
        rw [← hOther, hNone]
        rfl
      · rfl
  | some t =>
      rw [own_of_transfer? hTransfer, t.about_tick,
        hNames other t hTransfer]
      split
      · rename_i hOther
        rw [← hOther, own_of_transfer? hTransfer]
      · rfl

end Downloads

end PeerShare

------------------------------------------------------------
-- Passes in Any Order
------------------------------------------------------------

namespace PeerShare

/-
  The visit to a transfer: what the tracker is told, the
  requests for chunks, and the transfer as it is then.
-/
def Transfer.visit
    (t : Transfer)
    (now : Moment)
    (log : TransferLog) :
    List Wire.Message × List ChunkRequest × Transfer :=
  let due := t.isComplete || t.isRefreshDue now
  let messages := if due then t.refreshMessages else []
  let refreshed := if due then { t with refreshed := now } else t
  if t.isComplete then (messages, [], refreshed)
  else
    let (requests, scheduled) := refreshed.schedule now log
    (messages,
      requests.map fun (peer, indices) =>
        { peer, name := t.name, indices },
      scheduled)

/- A pass is a visit, after which a complete file is gone. -/
theorem Transfer.tick_eq_visit
    (t : Transfer)
    (now : Moment)
    (log : TransferLog) :
    t.tick now log =
      if t.isComplete then
        ({ messages := (t.visit now log).1
           requests := (t.visit now log).2.1
           completed := [(t.visit now log).2.2.complete now] },
          none)
      else
        ({ messages := (t.visit now log).1
           requests := (t.visit now log).2.1
           completed := [] },
          some (t.visit now log).2.2) := by
  unfold tick visit
  cases t.isComplete with
  | true => rfl
  | false => rfl

namespace Downloads

/-
  A pass that is under way: the downloads as they are, what
  has been decided, and the complete files in the order in
  which they were visited.
-/
structure Sweep where
  downloads : Downloads
  pass : Pass
  finished : List String

namespace Sweep

/- The start of a pass. -/
def start
    (d : Downloads) : Sweep where
  downloads := d
  pass := Pass.nothing
  finished := []

/- Visit a file, which stays even if it is complete. -/
def visit
    (now : Moment)
    (log : TransferLog)
    (w : Sweep)
    (name : String) : Sweep :=
  match w.downloads.transfer? name with
  | none => w
  | some t =>
      let (messages, requests, visited) := t.visit now log
      { downloads := w.downloads.set name visited
        pass :=
          { w.pass with
            messages := w.pass.messages ++ messages
            requests := w.pass.requests ++ requests }
        finished :=
          if t.isComplete then w.finished ++ [name]
          else w.finished }

/- Remove a complete file, and hand it out. -/
def handOut
    (now : Moment)
    (w : Sweep)
    (name : String) : Sweep :=
  match w.downloads.discard name with
  | (some (.fetching t), downloads) =>
      { w with
        downloads
        pass :=
          { w.pass with
            completed :=
              w.pass.completed ++ [t.complete now] } }
  | (_, downloads) => { w with downloads }

end Sweep

/-
  The pass that visits the files in a given order, and then
  hands out the complete ones.
-/
def tickIn
    (d : Downloads)
    (order : List String)
    (now : Moment)
    (log : TransferLog) :
    Pass × Downloads :=
  let swept := order.foldl (Sweep.visit now log) (Sweep.start d)
  let handed := swept.finished.foldl (Sweep.handOut now) swept
  (handed.pass, handed.downloads)

end Downloads

end PeerShare

------------------------------------------------------------
-- The Visits
------------------------------------------------------------

namespace PeerShare

/- A download as a visit leaves it. -/
def Download.visited
    (now : Moment)
    (log : TransferLog) : Download → Download
  | .awaiting requested => .awaiting requested
  | .fetching t => .fetching (t.visit now log).2.2

namespace Downloads

variable {d : Downloads}
variable {name : String}
variable {t : Transfer}
variable {now : Moment}
variable {log : TransferLog}
variable {order visited : List String}
variable {w : Downloads.Sweep}

/- Whether a file is fetched and complete. -/
def isDone
    (d : Downloads)
    (name : String) : Bool :=
  (d.transfer? name).any (·.isComplete)

/- A visit decides what a pass does before it hands out. -/
theorem own_of_visit
    (h : d.transfer? name = some t) :
    d.own now log name =
      { messages := (t.visit now log).1
        requests := (t.visit now log).2.1
        completed :=
          if d.isDone name then
            [(t.visit now log).2.2.complete now]
          else [] } := by
  have hDone : d.isDone name = t.isComplete := by
    unfold isDone
    rw [h]
    rfl
  rw [own_of_transfer? h, t.tick_eq_visit, hDone]
  cases t.isComplete with
  | true => rfl
  | false => rfl

theorem completed_own_of_not_isDone
    (h : d.isDone name = false) :
    (d.own now log name).completed = [] := by
  cases hTransfer : d.transfer? name with
  | none =>
      rw [own_of_transfer?_eq_none hTransfer]
      rfl
  | some t =>
      rw [own_of_visit hTransfer, h]
      rfl

/- What is decided about a file depends on its entry alone. -/
theorem own_congr
    {d' : Downloads}
    (h : d'.files.get? name = d.files.get? name) :
    d'.own now log name = d.own now log name := by
  unfold own only
  rw [h]

namespace Sweep

theorem pass_visit
    (w : Sweep)
    (now : Moment)
    (log : TransferLog)
    (name : String) :
    (w.visit now log name).pass =
      w.pass.append
        (w.downloads.own now log name).withoutCompleted := by
  unfold visit
  cases hTransfer : w.downloads.transfer? name with
  | none =>
      rw [own_of_transfer?_eq_none hTransfer]
      exact w.pass.append_nothing.symm
  | some t =>
      rw [own_of_visit hTransfer]
      unfold Pass.append Pass.withoutCompleted
      simp

theorem finished_visit
    (w : Sweep)
    (now : Moment)
    (log : TransferLog)
    (name : String) :
    (w.visit now log name).finished =
      w.finished ++ [name].filter w.downloads.isDone := by
  unfold visit isDone
  rw [List.filter_singleton]
  cases w.downloads.transfer? name with
  | none => exact (List.append_nil _).symm
  | some t =>
      cases hComplete : t.isComplete with
      | true => simp [hComplete]
      | false => simp [hComplete]

/- A visit changes the entry of its file alone. -/
theorem get?_visit
    (w : Sweep)
    (now : Moment)
    (log : TransferLog)
    (name other : String) :
    (w.visit now log name).downloads.files.get? other =
      if other = name then
        (w.downloads.files.get? name).map
          (Download.visited now log)
      else w.downloads.files.get? other := by
  unfold visit
  cases hTransfer : w.downloads.transfer? name with
  | none =>
      dsimp only
      split
      · rename_i hOther
        rw [hOther]
        cases hGet : w.downloads.files.get? name with
        | none => rfl
        | some download =>
            cases download with
            -- the visit to an awaited file changes nothing
            | awaiting => rfl
            | fetching t =>
                rw [transfer?_eq_some_iff.mpr hGet] at hTransfer
                cases hTransfer
      · rfl
  | some t =>
      dsimp only
      unfold set
      split
      · rename_i hOther
        rw [hOther, Table.get?_insert_self,
          transfer?_eq_some_iff.mp hTransfer]
        rfl
      · rename_i hOther
        exact Table.get?_insert_of_ne _ _ hOther

/- What holds when some files have been visited. -/
structure Visited
    (d : Downloads)
    (now : Moment)
    (log : TransferLog)
    (visited : List String)
    (w : Sweep) : Prop where
  pass_eq :
    w.pass =
      (Pass.concat
        (visited.map (d.own now log))).withoutCompleted
  finished_eq : w.finished = visited.filter d.isDone
  get?_eq :
    ∀ name,
      w.downloads.files.get? name =
        if name ∈ visited then
          (d.files.get? name).map (Download.visited now log)
        else d.files.get? name

namespace Visited

theorem start
    (d : Downloads)
    (now : Moment)
    (log : TransferLog) :
    Visited d now log [] (Sweep.start d) where
  pass_eq := rfl
  finished_eq := rfl
  get?_eq _ := (if_neg List.not_mem_nil).symm

/- One more visit, to a file that was not visited before. -/
theorem visit
    (h : Visited d now log visited w)
    (hNew : name ∉ visited) :
    Visited d now log (visited ++ [name])
      (w.visit now log name) := by
  have hSame :
      w.downloads.files.get? name = d.files.get? name :=
    (h.get?_eq name).trans (if_neg hNew)
  refine ⟨?_, ?_, ?_⟩
  · rw [pass_visit, own_congr hSame, h.pass_eq,
      List.map_append, Pass.concat_append, List.map_singleton,
      Pass.concat_singleton]
    rfl
  · have hDone : w.downloads.isDone name = d.isDone name := by
      unfold isDone
      rw [transfer?_congr hSame]
    rw [finished_visit, h.finished_eq, List.filter_append,
      List.filter_singleton, List.filter_singleton, hDone]
  · intro other
    rw [get?_visit, hSame, h.get?_eq other]
    by_cases hOther : other = name
    · rw [if_pos hOther, hOther, if_pos]
      exact List.mem_append_right _ List.mem_cons_self
    · have hMem :
          other ∈ visited ++ [name] ↔ other ∈ visited := by
        simp [hOther]
      rw [if_neg hOther]
      simp only [hMem]

/- All visits, one after another. -/
theorem foldl
    (h : Visited d now log visited w)
    (hNodup : (visited ++ order).Nodup) :
    Visited d now log (visited ++ order)
      (order.foldl (Sweep.visit now log) w) := by
  induction order generalizing visited w with
  | nil =>
      rw [List.append_nil]
      exact h
  | cons name order ih =>
      have hFirst :=
        List.nodup_cons.mp (List.nodup_middle.mp hNodup)
      have hNew : name ∉ visited :=
        fun hMem => hFirst.1 (List.mem_append_left _ hMem)
      rw [List.append_cons] at hNodup ⊢
      exact ih (h.visit hNew) hNodup

end Visited

end Sweep

end Downloads

end PeerShare

------------------------------------------------------------
-- The Complete Files
------------------------------------------------------------

namespace PeerShare

namespace Downloads

variable {d : Downloads}
variable {name : String}
variable {now : Moment}
variable {log : TransferLog}
variable {order handed : List String}
variable {v w : Downloads.Sweep}

namespace Sweep

/-
  What holds when some files have been handed out after all
  visits.
-/
structure HandedOut
    (d : Downloads)
    (now : Moment)
    (log : TransferLog)
    (v : Sweep)
    (handed : List String)
    (w : Sweep) : Prop where
  pass_eq :
    w.pass =
      { v.pass with
        completed :=
          (Pass.concat
            (handed.map (d.own now log))).completed }
  get?_eq :
    ∀ name,
      w.downloads.files.get? name =
        if name ∈ handed then none
        else v.downloads.files.get? name

/- A complete file is handed out as its visit left it. -/
theorem HandedOut.handOut
    (h : HandedOut d now log v handed w)
    (hVisited : Visited d now log order v)
    (hNew : name ∉ handed)
    (hMem : name ∈ order)
    (hDone : d.isDone name = true) :
    HandedOut d now log v (handed ++ [name])
      (w.handOut now name) := by
  rcases (Option.any_eq_true _ _).mp hDone with
    ⟨t, hTransfer, -⟩
  have hGet :
      w.downloads.files.get? name =
        some (.fetching (t.visit now log).2.2) := by
    rw [h.get?_eq, if_neg hNew, hVisited.get?_eq, if_pos hMem,
      transfer?_eq_some_iff.mp hTransfer]
    rfl
  have hOwn :
      (d.own now log name).completed =
        [(t.visit now log).2.2.complete now] := by
    rw [own_of_visit hTransfer, hDone]
    rfl
  -- no file before it in the row has touched its entry
  unfold Sweep.handOut discard
  rw [hGet]
  refine ⟨?_, ?_⟩
  · dsimp only
    rw [List.map_append, Pass.concat_append, List.map_singleton,
      Pass.concat_singleton, h.pass_eq]
    unfold Pass.append
    dsimp only
    rw [hOwn]
  · intro other
    dsimp only
    by_cases hOther : other = name
    · rw [hOther, Table.get?_erase_self, if_pos]
      exact List.mem_append_right _ List.mem_cons_self
    · have hIff :
          other ∈ handed ++ [name] ↔ other ∈ handed := by
        simp [hOther]
      rw [Table.get?_erase_of_ne _ hOther, h.get?_eq other]
      simp only [hIff]

theorem HandedOut.foldl
    {files : List String}
    (h : HandedOut d now log v handed w)
    (hVisited : Visited d now log order v)
    (hNodup : (handed ++ files).Nodup)
    (hFiles :
      ∀ name ∈ files,
        name ∈ order ∧ d.isDone name = true) :
    HandedOut d now log v (handed ++ files)
      (files.foldl (Sweep.handOut now) w) := by
  induction files generalizing handed w with
  | nil =>
      rw [List.append_nil]
      exact h
  | cons name files ih =>
      have hFirst :=
        List.nodup_cons.mp (List.nodup_middle.mp hNodup)
      have hNew : name ∉ handed :=
        fun hMem => hFirst.1 (List.mem_append_left _ hMem)
      rw [List.append_cons] at hNodup ⊢
      rcases hFiles name List.mem_cons_self with ⟨hMem, hDone⟩
      apply ih (h.handOut hVisited hNew hMem hDone) hNodup
      exact fun other hOther =>
        hFiles other (List.mem_cons_of_mem _ hOther)

end Sweep

/- Only complete files are handed out. -/
theorem completed_concat_filter
    (d : Downloads)
    (now : Moment)
    (log : TransferLog)
    (order : List String) :
    (Pass.concat
        ((order.filter d.isDone).map
          (d.own now log))).completed =
      (Pass.concat (order.map (d.own now log))).completed := by
  induction order with
  | nil => rfl
  | cons name order ih =>
      have hSplit :
          (Pass.concat
              ((name :: order).map (d.own now log))).completed =
            (d.own now log name).completed ++
              (Pass.concat
                (order.map (d.own now log))).completed := rfl
      rw [hSplit, List.filter_cons]
      cases hDone : d.isDone name with
      | true =>
          rw [if_pos rfl, ← ih]
          rfl
      | false =>
          rw [if_neg Bool.false_ne_true, ih,
            completed_own_of_not_isDone hDone]
          rfl

end Downloads

end PeerShare

------------------------------------------------------------
-- Files Apart
------------------------------------------------------------

namespace PeerShare

namespace Downloads

variable {d : Downloads}
variable {name : String}
variable {now : Moment}
variable {log : TransferLog}
variable {order : List String}

/-
  A file after its visit, removed if it is complete, is what
  a pass over the file leaves.
-/
theorem tick_snd_eq_visited
    {download : Download}
    (h : d.files.get? name = some download) :
    (download.tick now log).2 =
      if d.isDone name then none
      else some (download.visited now log) := by
  unfold isDone transfer?
  rw [h]
  cases download with
  | awaiting => rfl
  | fetching t =>
      unfold Download.tick
      dsimp only [Option.any_some]
      rw [t.tick_eq_visit]
      split <;> rfl

/- What a pass in some order decides and leaves. -/
theorem handedOut_tickIn
    (hNodup : order.Nodup) :
    (d.tickIn order now log).1 =
        Pass.concat (order.map (d.own now log)) ∧
      ∀ name,
        (d.tickIn order now log).2.files.get? name =
          if name ∈ order then
            (d.files.get? name).bind fun download =>
              (download.tick now log).2
          else d.files.get? name := by
  have hVisited :=
    (Sweep.Visited.start d now log).foldl hNodup
  unfold tickIn
  dsimp only
  generalize
    order.foldl (Sweep.visit now log) (Sweep.start d) = v
      at hVisited ⊢
  rw [List.nil_append] at hVisited
  have hStart : Sweep.HandedOut d now log v [] v :=
    ⟨by rw [hVisited.pass_eq]; rfl, fun _ => by simp⟩
  have hFiles :
      ∀ name ∈ order.filter d.isDone,
        name ∈ order ∧ d.isDone name = true :=
    fun name hMem => List.mem_filter.mp hMem
  have hHanded :=
    hStart.foldl hVisited (hNodup.filter d.isDone) hFiles
  rw [hVisited.finished_eq]
  rw [List.nil_append] at hHanded
  constructor
  · rw [hHanded.pass_eq, hVisited.pass_eq,
      completed_concat_filter]
    rfl
  · intro name
    rw [hHanded.get?_eq, hVisited.get?_eq]
    by_cases hMem : name ∈ order
    · rw [if_pos hMem, if_pos hMem]
      cases hGet : d.files.get? name with
      | none => simp
      | some download =>
          rw [Option.bind_some, tick_snd_eq_visited hGet]
          simp [List.mem_filter, hMem]
    · have hNot : name ∉ order.filter d.isDone :=
        fun h => hMem (List.mem_filter.mp h).1
      rw [if_neg hNot, if_neg hMem, if_neg hMem]

theorem not_mem_of_perm
    (hOrder : order.Perm d.files.keys) :
    name ∉ order ↔ d.files.get? name = none := by
  rw [hOrder.mem_iff, Table.mem_keys_iff,
    Option.eq_none_iff_forall_ne_some, not_exists]

theorem get?_tickIn
    (hOrder : order.Perm d.files.keys)
    (name : String) :
    (d.tickIn order now log).2.files.get? name =
      (d.files.get? name).bind fun download =>
        (download.tick now log).2 := by
  have hNodup := hOrder.nodup_iff.mpr (Table.nodup_keys d.files)
  rw [(handedOut_tickIn hNodup).2]
  by_cases hMem : name ∈ order
  · exact if_pos hMem
  · rw [if_neg hMem, (not_mem_of_perm hOrder).mp hMem]
    rfl

/- In every order a pass leaves the same. -/
theorem tickIn_snd
    (hOrder : order.Perm d.files.keys) :
    (d.tickIn order now log).2 = (d.tick now log).2 := by
  have hFiles :
      (d.tickIn order now log).2.files =
        (d.tick now log).2.files := by
    apply Table.eq_of_get?_eq
    intro name
    rw [get?_tickIn hOrder, get?_tick]
  generalize (d.tickIn order now log).2 = d₁ at hFiles ⊢
  generalize (d.tick now log).2 = d₂ at hFiles ⊢
  rcases d₁ with ⟨files₁⟩
  rcases d₂ with ⟨files₂⟩
  exact congrArg Downloads.mk hFiles

/- The pass in order of names is one of these passes. -/
theorem tick_eq_tickIn
    (d : Downloads)
    (now : Moment)
    (log : TransferLog) :
    d.tick now log = d.tickIn d.files.keys now log := by
  apply Prod.ext
  · rw [tick_fst, (handedOut_tickIn (Table.nodup_keys _)).1]
  · exact (tickIn_snd (List.Perm.refl _)).symm

/-
  In whatever order a pass visits the files, it decides one
  after another what passes over single files decide, and
  leaves of each file what such a pass leaves.  When every
  transfer has the name that it stands under, as in all
  sessions that come about, what the pass decides about a
  name is what the pass over this file alone decides.
-/
theorem tick_independent
    (d : Downloads)
    (now : Moment)
    (log : TransferLog)
    (order : List String)
    (hOrder : order.Perm d.files.keys) :
    d.tick now log = d.tickIn d.files.keys now log ∧
      (d.tickIn order now log).1 =
        Pass.concat
          (order.map fun name =>
            ((d.only name).tick now log).1) ∧
      (∀ name,
        (d.tickIn order now log).2.files.get? name =
          ((d.only name).tick now log).2.files.get? name) ∧
      (d.tickIn order now log).2 = (d.tick now log).2 ∧
      ((∀ other u,
          d.transfer? other = some u → u.name = other) →
        ∀ name,
          (d.tickIn order now log).1.about name =
            ((d.only name).tick now log).1) := by
  have hNodup := hOrder.nodup_iff.mpr (Table.nodup_keys d.files)
  have hPass :
      (d.tickIn order now log).1 =
        Pass.concat (order.map (d.own now log)) :=
    (handedOut_tickIn hNodup).1
  refine ⟨d.tick_eq_tickIn now log, hPass, ?_,
    tickIn_snd hOrder, ?_⟩
  · intro name
    rw [get?_tickIn hOrder, get?_tick_only]
  · intro hNames name
    have hOwn :
        ((d.only name).tick now log).1 = d.own now log name :=
      rfl
    rw [hPass, Pass.about_concat (about_own hNames name)
      hNodup, hOwn]
    split
    · rfl
    · rename_i hMem
      rw [own_of_none ((not_mem_of_perm hOrder).mp hMem)]

/- A file ends and another goes on, the last name first. -/
theorem tick_independent_of_two_files :
    let log := TransferLog.start TransferLog.defaultWindow
    let s :=
      Session.run
        ((Session.awaiting "a").after (.request "b" 0))
        ([.start (.describe "a" [7]) "a" false [] 0,
            .start (.describe "b" [8]) "b" false
              [(⟨.loopback, 1⟩, [0x80])] 0] ++
          Session.arrivals "a" [[7]])
    let d := s.downloads
    let result := d.tickIn ["b", "a"] 1 log
    ["b", "a"].Perm d.files.keys ∧
      (result.1.about "a").requests = [] ∧
      (result.1.about "a").completed.length = 1 ∧
      (result.1.about "b").requests =
        [⟨⟨.loopback, 1⟩, "b", [0]⟩] ∧
      (result.1.about "b").completed = [] ∧
      result.2.files.keys = ["b"] := by
  intro log s d result
  have hReachable : s.IsReachable :=
    ((Session.isReachable_awaiting "a").after _).run _
  have hAlone :
      d.files.keys = ["a", "b"] ∧
        ((d.only "a").tick 1 log).1.requests = [] ∧
        ((d.only "a").tick 1 log).1.completed.length = 1 ∧
        ((d.only "b").tick 1 log).1.requests =
          [⟨⟨.loopback, 1⟩, "b", [0]⟩] ∧
        ((d.only "b").tick 1 log).1.completed = [] ∧
        (d.tick 1 log).2.files.keys = ["b"] := by
    decide +kernel
  rcases hAlone with ⟨hKeys, hAlone⟩
  have hOrder : ["b", "a"].Perm d.files.keys := by
    rw [hKeys]
    exact List.Perm.swap _ _ _
  rcases tick_independent d 1 log ["b", "a"] hOrder with
    ⟨-, -, -, hSame, hAbout⟩
  have hApart := hAbout hReachable.name_eq
  refine ⟨hOrder, ?_⟩
  rw [hApart, hApart, hSame]
  exact hAlone

end Downloads

end PeerShare

import Mathlib.Data.List.Basic
import PeerShare.Proofs.Tracker.Mirror

/-
  What is done to other files does not matter to a file.

  A catalog is narrowed to one file by forgetting all other
  files and what the peers hold of them.  The narrowed
  catalog replies to all that concerns the file as the whole
  catalog does, and what does not concern the file leaves
  the narrowed catalog as it is.

  Key definitions include:
    * `Table.only`
    * `Tracker.Catalog.only`

  Key theorems include:
    * `Tracker.Catalog.perform_only`
    * `Tracker.Catalog.only_perform`
    * `Tracker.Catalog.filter_history`
-/

------------------------------------------------------------
-- Narrowed Tables
------------------------------------------------------------

namespace PeerShare

namespace Table

variable {κ : Type} [Keyed κ]
variable {α : Type}

/- The binding of one key alone. -/
def only
    (t : Table κ α)
    (k : κ) : Table κ α :=
  t.filter fun k' _ => sameKey k' k

theorem get?_only
    (t : Table κ α)
    (k k' : κ) :
    (t.only k).get? k' =
      if sameKey k' k then t.get? k' else none := by
  apply Option.ext
  intro v
  rw [only, get?_filter_eq_some_iff]
  cases sameKey k' k <;> simp

theorem get?_only_self
    (t : Table κ α)
    (k : κ) :
    (t.only k).get? k = t.get? k := by
  rw [get?_only, sameKey_iff.mpr rfl, if_pos rfl]

theorem contains_only_self
    (t : Table κ α)
    (k : κ) :
    (t.only k).contains k = t.contains k := by
  unfold contains
  rw [get?_only_self]

theorem only_insert_self
    (t : Table κ α)
    (k : κ)
    (v : α) :
    (t.insert k v).only k = (t.only k).insert k v := by
  apply eq_of_get?_eq
  intro k'
  rw [get?_only, get?_insert, get?_insert, get?_only]
  split <;> rfl

theorem only_insert_of_ne
    (t : Table κ α)
    {k k' : κ}
    (v : α)
    (h : k ≠ k') :
    (t.insert k' v).only k = t.only k := by
  apply eq_of_get?_eq
  intro j
  rw [get?_only, get?_only]
  split
  · rename_i hSame
    rw [sameKey_iff.mp hSame, get?_insert_of_ne _ _ h]
  · rfl

theorem only_erase_self
    (t : Table κ α)
    (k : κ) :
    (t.erase k).only k = (t.only k).erase k := by
  apply eq_of_get?_eq
  intro k'
  rw [get?_only, get?_erase, get?_erase, get?_only]
  split <;> rfl

theorem only_erase_of_ne
    (t : Table κ α)
    {k k' : κ}
    (h : k ≠ k') :
    (t.erase k').only k = t.only k := by
  apply eq_of_get?_eq
  intro j
  rw [get?_only, get?_only]
  split
  · rename_i hSame
    rw [sameKey_iff.mp hSame, get?_erase_of_ne _ h]
  · rfl

end Table

end PeerShare

------------------------------------------------------------
-- Narrowed Catalogs
------------------------------------------------------------

namespace PeerShare

namespace Tracker

/- A peer that holds chunks of one file alone. -/
def PeerRecord.only
    (record : PeerRecord)
    (name : String) : PeerRecord :=
  { record with holdings := record.holdings.only name }

theorem PeerRecord.listing?_only
    (record : PeerRecord)
    (name : String) :
    (record.only name).listing? name =
      record.listing? name := by
  unfold listing? holding? PeerRecord.only
  rw [Table.get?_only_self]

theorem PeerRecord.setHolding_only
    (record : PeerRecord)
    (name : String)
    (chunks : ChunkSet) :
    (record.setHolding name chunks).only name =
      (record.only name).setHolding name chunks := by
  unfold setHolding PeerRecord.only
  rw [Table.only_insert_self]

theorem PeerRecord.setHolding_only_of_ne
    (record : PeerRecord)
    {name other : String}
    (chunks : ChunkSet)
    (h : name ≠ other) :
    (record.setHolding other chunks).only name =
      record.only name := by
  unfold setHolding PeerRecord.only
  rw [Table.only_insert_of_ne _ _ h]

theorem PeerRecord.dropHolding_only
    (record : PeerRecord)
    (name : String) :
    (record.dropHolding name).only name =
      (record.only name).dropHolding name := by
  unfold dropHolding PeerRecord.only
  rw [Table.only_erase_self]

theorem PeerRecord.dropHolding_only_of_ne
    (record : PeerRecord)
    {name other : String}
    (h : name ≠ other) :
    (record.dropHolding other).only name =
      record.only name := by
  unfold dropHolding PeerRecord.only
  rw [Table.only_erase_of_ne _ h]

namespace Catalog

/- A catalog that knows of one file alone. -/
def only
    (c : Catalog)
    (name : String) : Catalog :=
  { c with
    files := c.files.only name
    peers := c.peers.mapValues (·.only name) }

variable {name : String}
variable {o : Operation}

theorem only_empty
    (name : String) :
    empty.only name = empty :=
  rfl

theorem query_only
    (c : Catalog)
    (name : String) :
    (c.only name).query name = c.query name := by
  unfold query Catalog.only Table.values Table.mapValues
  dsimp only
  rw [Table.get?_only_self]
  split
  · rfl
  · rw [List.map_map, List.filterMap_map, List.filterMap_map]
    congr 2
    apply List.filterMap_congr
    intro e _
    exact e.2.listing?_only name

/- What concerns a file is done to it alone as to all. -/
theorem perform_only
    (c : Catalog)
    (h : o.concerns name = true) :
    (c.only name).perform o =
      ((c.perform o).1, (c.perform o).2.only name) := by
  cases o with
  | register identity port =>
      unfold perform register Catalog.only
      dsimp only
      rw [Table.mapValues_insert]
      rfl
  | unregister peer =>
      unfold perform unregister Catalog.only
      dsimp only
      rw [Table.mapValues_erase]
  | query other =>
      cases of_decide_eq_true h
      unfold perform
      dsimp only
      rw [query_only]
  | publish publisher file =>
      cases of_decide_eq_true h
      unfold perform publish Catalog.only
      dsimp only
      rw [Table.get?_mapValues, Table.contains_only_self]
      cases fileFault? file with
      | some fault => rfl
      | none =>
          cases c.peers.get? publisher with
          | none => rfl
          | some record =>
              dsimp only [Option.map_some]
              split
              · rfl
              · rw [Table.only_insert_self,
                  Table.mapValues_insert,
                  PeerRecord.setHolding_only]
  | update peer other bitfield =>
      cases of_decide_eq_true h
      unfold perform update Catalog.only
      dsimp only
      rw [Table.get?_mapValues, Table.get?_only_self]
      cases c.files.get? name with
      | none => rfl
      | some file =>
          cases c.peers.get? peer with
          | none => rfl
          | some record =>
              dsimp only [Option.map_some]
              rw [Table.mapValues_insert,
                PeerRecord.setHolding_only]
  | remove requester other =>
      cases of_decide_eq_true h
      unfold perform remove Catalog.only
      dsimp only
      rw [Table.contains_only_self]
      split
      · simp only [Table.only_erase_self,
          Table.mapValues_mapValues,
          PeerRecord.dropHolding_only]
      · rfl

/- What concerns another file leaves a file alone as it is. -/
theorem only_perform
    (c : Catalog)
    (h : o.concerns name = false) :
    (c.perform o).2.only name = c.only name := by
  have hEffect := c.effect_perform o
  generalize c.perform o = result at hEffect ⊢
  rcases result with ⟨reply, c'⟩
  cases hEffect with
  | register identity port => cases h
  | unregister peer => cases h
  | @publish publisher file record registered free =>
      have hNe : name ≠ file.name :=
        Ne.symm (of_decide_eq_false h)
      unfold Catalog.only
      dsimp only
      rw [Table.only_insert_of_ne _ _ hNe,
        Table.mapValues_insert_of_eq registered
          (record.setHolding_only_of_ne _ hNe)]
  | @update peer other bitfield file record tracked registered =>
      have hNe : name ≠ other :=
        Ne.symm (of_decide_eq_false h)
      unfold Catalog.only
      dsimp only
      rw [Table.mapValues_insert_of_eq registered
        (record.setHolding_only_of_ne _ hNe)]
  | @remove requester other =>
      have hNe : name ≠ other :=
        Ne.symm (of_decide_eq_false h)
      unfold Catalog.only
      dsimp only
      rw [Table.only_erase_of_ne _ hNe,
        Table.mapValues_mapValues]
      congr 2
      funext record
      exact record.dropHolding_only_of_ne hNe
  | idle isIdle => rfl

/- The replies that concern a file need no other file. -/
theorem filter_history
    (c : Catalog)
    (name : String)
    (operations : List Operation) :
    (c.history operations).filter (·.1.concerns name) =
      (c.only name).history
        (operations.filter (·.concerns name)) := by
  induction operations generalizing c with
  | nil => rfl
  | cons o operations ih =>
      rw [history, List.filter_cons, List.filter_cons]
      cases h : o.concerns name with
      | true =>
          rw [if_pos rfl, if_pos rfl, history,
            c.perform_only h, ih]
      | false =>
          rw [if_neg Bool.false_ne_true,
            if_neg Bool.false_ne_true, ih,
            c.only_perform h]

end Catalog

end Tracker

end PeerShare

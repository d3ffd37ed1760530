/-
  Tables with ordered keys.

  A table binds keys to values.  Its entries stand in the
  order of their keys, and no key occurs twice, so that two
  tables with the same bindings are equal.

  Keys are ordered by the lexicographic order of a code, a
  list of natural numbers which determines the key.

  Key definitions include:
    * `Keyed`
    * `Table`
    * `Table.get?`
    * `Table.insert`
    * `Table.erase`
    * `Table.modify`
    * `Table.mapValues`
    * `Table.filter`

  Key theorems include:
    * `Table.get?_insert`
    * `Table.get?_erase`
    * `Table.mem_entries_iff`
    * `Table.nodup_keys`
    * `Table.eq_of_get?_eq`
-/

------------------------------------------------------------
-- Codes and Their Order
------------------------------------------------------------

namespace PeerShare

/- The lexicographic order of codes. -/
def codeLt : List Nat → List Nat → Bool
  | _, [] => false
  | [], _ :: _ => true
  | a :: as, b :: bs =>
      decide (a < b) || (a == b && codeLt as bs)

theorem codeLt_irrefl
    (as : List Nat) :
    codeLt as as = false := by
  induction as with
  | nil => rfl
  | cons a as ih => simp [codeLt, ih]

theorem codeLt_trans
    {as bs cs : List Nat}
    (h₁ : codeLt as bs = true)
    (h₂ : codeLt bs cs = true) :
    codeLt as cs = true := by
  induction as generalizing bs cs with
  | nil =>
      cases cs with
      | nil => cases bs <;> simp [codeLt] at h₂
      | cons c cs => rfl
  | cons a as ih =>
      cases bs with
      | nil => simp [codeLt] at h₁
      | cons b bs =>
          cases cs with
          | nil => simp [codeLt] at h₂
          | cons c cs =>
              simp only [codeLt, Bool.or_eq_true,
                decide_eq_true_eq, Bool.and_eq_true,
                beq_iff_eq] at h₁ h₂ ⊢
              rcases h₁ with h₁ | ⟨rfl, h₁⟩
              · rcases h₂ with h₂ | ⟨rfl, _⟩
                · exact Or.inl (Nat.lt_trans h₁ h₂)
                · exact Or.inl h₁
              · rcases h₂ with h₂ | ⟨rfl, h₂⟩
                · exact Or.inl h₂
                · exact Or.inr ⟨rfl, ih h₁ h₂⟩

/- Different codes are comparable. -/
theorem codeLt_total
    {as bs : List Nat}
    (h₁ : codeLt as bs = false)
    (h₂ : codeLt bs as = false) :
    as = bs := by
  induction as generalizing bs with
  | nil =>
      cases bs with
      | nil => rfl
      | cons b bs => simp [codeLt] at h₁
  | cons a as ih =>
      cases bs with
      | nil => simp [codeLt] at h₂
      | cons b bs =>
          simp only [codeLt, Bool.or_eq_false_iff,
            decide_eq_false_iff_not, Bool.and_eq_false_iff,
            beq_eq_false_iff_ne] at h₁ h₂
          have hEq : a = b := by omega
          subst hEq
          have hTail : as = bs :=
            ih (by simpa using h₁.2) (by simpa using h₂.2)
          rw [hTail]

/- A type of keys, each of which is determined by a code. -/
class Keyed (κ : Type) where
  code : κ → List Nat
  code_injective : ∀ {a b : κ}, code a = code b → a = b

/- One key comes before another when its code does. -/
def Keyed.before
    {κ : Type}
    [Keyed κ]
    (a b : κ) : Bool :=
  codeLt (Keyed.code a) (Keyed.code b)

namespace Keyed

variable {κ : Type} [Keyed κ]

theorem before_irrefl
    (a : κ) :
    before a a = false :=
  codeLt_irrefl _

theorem before_trans
    {a b c : κ}
    (h₁ : before a b = true)
    (h₂ : before b c = true) :
    before a c = true :=
  codeLt_trans h₁ h₂

theorem before_total
    {a b : κ}
    (h₁ : before a b = false)
    (h₂ : before b a = false) :
    a = b :=
  code_injective (codeLt_total h₁ h₂)

theorem ne_of_before
    {a b : κ}
    (h : before a b = true) :
    a ≠ b := by
  rintro rfl
  rw [before_irrefl] at h
  cases h

end Keyed

/- A number is its own code. -/
instance : Keyed Nat where
  code n := [n]
  code_injective h := by
    simpa using h

/- Texts are ordered by the code points of their letters. -/
instance : Keyed String where
  code s := s.toList.map Char.toNat
  code_injective {a b} h := by
    have hInj : ∀ {c d : Char}, c.toNat = d.toNat → c = d :=
      fun h => Char.ext (UInt32.toNat_inj.mp h)
    have hLists : ∀ {cs ds : List Char},
        cs.map Char.toNat = ds.map Char.toNat → cs = ds := by
      intro cs
      induction cs with
      | nil =>
          intro ds h
          cases ds with
          | nil => rfl
          | cons d ds => simp at h
      | cons c cs ih =>
          intro ds h
          cases ds with
          | nil => simp at h
          | cons d ds =>
              simp only [List.map_cons, List.cons.injEq] at h
              rw [hInj h.1, ih h.2]
    exact String.toList_inj.mp (hLists h)

end PeerShare

------------------------------------------------------------
-- Tables
------------------------------------------------------------

namespace PeerShare

/-
  A table: entries in strictly increasing order of keys.
-/
structure Table
    (κ : Type)
    (α : Type)
    [Keyed κ] where
  entries : List (κ × α)
  sorted :
    entries.Pairwise fun a b => Keyed.before a.1 b.1 = true

namespace Table

variable {κ : Type} [Keyed κ]
variable {α β : Type}

theorem ext_entries
    {s t : Table κ α}
    (h : s.entries = t.entries) :
    s = t := by
  cases s
  cases t
  cases h
  rfl

/- The table without entries. -/
def empty : Table κ α where
  entries := []
  sorted := List.Pairwise.nil

instance : Inhabited (Table κ α) where
  default := empty

instance [DecidableEq κ] [DecidableEq α] :
    DecidableEq (Table κ α) := fun s t =>
  if h : s.entries = t.entries then
    .isTrue (ext_entries h)
  else
    .isFalse fun hEq => h (congrArg entries hEq)

/- The value bound to `k` in a list of entries. -/
def lookup
    (k : κ) :
    List (κ × α) → Option α
  | [] => none
  | (k', v) :: rest =>
      if Keyed.before k k' then none
      else if Keyed.before k' k then lookup k rest
      else some v

/- The value bound to a key. -/
def get?
    (t : Table κ α)
    (k : κ) : Option α :=
  lookup k t.entries

/- Whether a key is bound. -/
def contains
    (t : Table κ α)
    (k : κ) : Bool :=
  (t.get? k).isSome

/- The number of bindings. -/
def size
    (t : Table κ α) : Nat :=
  t.entries.length

/- Whether there are no bindings. -/
def isEmpty
    (t : Table κ α) : Bool :=
  t.entries.isEmpty

/- The keys in increasing order. -/
def keys
    (t : Table κ α) : List κ :=
  t.entries.map Prod.fst

/- The values in the order of their keys. -/
def values
    (t : Table κ α) : List α :=
  t.entries.map Prod.snd

/- Put a binding in its place among sorted entries. -/
def insertEntry
    (k : κ)
    (v : α) :
    List (κ × α) → List (κ × α)
  | [] => [(k, v)]
  | (k', v') :: rest =>
      if Keyed.before k k' then (k, v) :: (k', v') :: rest
      else if Keyed.before k' k then
        (k', v') :: insertEntry k v rest
      else (k, v) :: rest

theorem mem_insertEntry
    {k : κ}
    {v : α}
    {es : List (κ × α)}
    {e : κ × α}
    (h : e ∈ insertEntry k v es) :
    e = (k, v) ∨ e ∈ es := by
  induction es with
  | nil => exact Or.inl (by simpa [insertEntry] using h)
  | cons e' rest ih =>
      rcases e' with ⟨k', v'⟩
      rw [insertEntry] at h
      split at h
      · rcases List.mem_cons.mp h with h | h
        · exact Or.inl h
        · exact Or.inr h
      · split at h
        · rcases List.mem_cons.mp h with h | h
          · exact Or.inr (List.mem_cons.mpr (Or.inl h))
          · rcases ih h with h | h
            · exact Or.inl h
            · exact Or.inr (List.mem_cons_of_mem _ h)
        · rcases List.mem_cons.mp h with h | h
          · exact Or.inl h
          · exact Or.inr (List.mem_cons_of_mem _ h)

theorem sorted_insertEntry
    {k : κ}
    {v : α}
    {es : List (κ × α)}
    (h : es.Pairwise
      fun a b => Keyed.before a.1 b.1 = true) :
    (insertEntry k v es).Pairwise
      fun a b => Keyed.before a.1 b.1 = true := by
  induction es with
  | nil => simp [insertEntry]
  | cons e' rest ih =>
      rcases e' with ⟨k', v'⟩
      rcases List.pairwise_cons.mp h with ⟨hHead, hTail⟩
      rw [insertEntry]
      split
      case isTrue hLt =>
        refine List.pairwise_cons.mpr ⟨?_, h⟩
        intro e he
        rcases List.mem_cons.mp he with rfl | he
        · exact hLt
        · exact Keyed.before_trans hLt (hHead e he)
      case isFalse hNot =>
        split
        case isTrue hGt =>
          refine List.pairwise_cons.mpr ⟨?_, ih hTail⟩
          intro e he
          rcases mem_insertEntry he with rfl | he
          · exact hGt
          · exact hHead e he
        case isFalse hNot' =>
          have hEq : k = k' :=
            Keyed.before_total (by simpa using hNot)
              (by simpa using hNot')
          subst hEq
          exact List.pairwise_cons.mpr ⟨hHead, hTail⟩

/- Bind a key, replacing its old binding if there is one. -/
def insert
    (t : Table κ α)
    (k : κ)
    (v : α) : Table κ α where
  entries := insertEntry k v t.entries
  sorted := sorted_insertEntry t.sorted

/- Keep the bindings that pass a test. -/
def filter
    (t : Table κ α)
    (p : κ → α → Bool) : Table κ α where
  entries := t.entries.filter fun e => p e.1 e.2
  sorted := t.sorted.filter _

/- Whether two keys are the same. -/
def sameKey
    (a b : κ) : Bool :=
  !Keyed.before a b && !Keyed.before b a

theorem sameKey_iff
    {a b : κ} :
    sameKey a b = true ↔ a = b := by
  constructor
  · intro h
    simp only [sameKey, Bool.and_eq_true,
      Bool.not_eq_true'] at h
    exact Keyed.before_total h.1 h.2
  · rintro rfl
    simp [sameKey, Keyed.before_irrefl]

/- Remove the binding of a key. -/
def erase
    (t : Table κ α)
    (k : κ) : Table κ α :=
  t.filter fun k' _ => !sameKey k' k

/- Change every value. -/
def mapValues
    (t : Table κ α)
    (f : α → β) : Table κ β where
  entries := t.entries.map fun e => (e.1, f e.2)
  sorted := by
    rw [List.pairwise_map]
    exact t.sorted

/- Change the value of a key, if it is bound. -/
def modify
    (t : Table κ α)
    (k : κ)
    (f : α → α) : Table κ α :=
  match t.get? k with
  | none => t
  | some v => t.insert k (f v)

/-
  The table that binds each listed key to the last of its
  listed values.
-/
def ofList
    (es : List (κ × α)) : Table κ α :=
  es.foldl (fun t e => t.insert e.1 e.2) empty

end Table

end PeerShare

------------------------------------------------------------
-- Look-Up Laws
------------------------------------------------------------

namespace PeerShare

namespace Table

variable {κ : Type} [Keyed κ]
variable {α β : Type}

theorem lookup_eq_some_iff
    {k : κ}
    {v : α}
    {es : List (κ × α)}
    (h : es.Pairwise
      fun a b => Keyed.before a.1 b.1 = true) :
    lookup k es = some v ↔ (k, v) ∈ es := by
  induction es with
  | nil => simp [lookup]
  | cons e rest ih =>
      rcases e with ⟨k', v'⟩
      rcases List.pairwise_cons.mp h with ⟨hHead, hTail⟩
      rw [lookup]
      split
      case isTrue hLt =>
        constructor
        · intro hNone
          cases hNone
        · intro hMem
          rcases List.mem_cons.mp hMem with hEq | hMem
          · cases hEq
            rw [Keyed.before_irrefl] at hLt
            cases hLt
          · have hGt := hHead _ hMem
            have hSelf := Keyed.before_trans hLt hGt
            rw [Keyed.before_irrefl] at hSelf
            cases hSelf
      case isFalse hNot =>
        split
        case isTrue hGt =>
          rw [ih hTail]
          constructor
          · exact List.mem_cons_of_mem _
          · intro hMem
            rcases List.mem_cons.mp hMem with hEq | hMem
            · cases hEq
              rw [Keyed.before_irrefl] at hGt
              cases hGt
            · exact hMem
        case isFalse hNot' =>
          have hEq : k = k' :=
            Keyed.before_total (by simpa using hNot)
              (by simpa using hNot')
          subst hEq
          constructor
          · intro hSome
            cases hSome
            exact List.mem_cons_self
          · intro hMem
            rcases List.mem_cons.mp hMem with hEq | hMem
            · cases hEq
              rfl
            · have hGt := hHead _ hMem
              rw [Keyed.before_irrefl] at hGt
              cases hGt

/- The entries are just the bindings. -/
theorem mem_entries_iff
    {t : Table κ α}
    {k : κ}
    {v : α} :
    (k, v) ∈ t.entries ↔ t.get? k = some v :=
  (lookup_eq_some_iff t.sorted).symm

theorem mem_keys_iff
    {t : Table κ α}
    {k : κ} :
    k ∈ t.keys ↔ ∃ v, t.get? k = some v := by
  rw [keys, List.mem_map]
  constructor
  · rintro ⟨⟨k', v⟩, hMem, rfl⟩
    exact ⟨v, mem_entries_iff.mp hMem⟩
  · rintro ⟨v, hGet⟩
    exact ⟨(k, v), mem_entries_iff.mpr hGet, rfl⟩

theorem mem_values_iff
    {t : Table κ α}
    {v : α} :
    v ∈ t.values ↔ ∃ k, t.get? k = some v := by
  rw [values, List.mem_map]
  constructor
  · rintro ⟨⟨k, v'⟩, hMem, rfl⟩
    exact ⟨k, mem_entries_iff.mp hMem⟩
  · rintro ⟨k, hGet⟩
    exact ⟨(k, v), mem_entries_iff.mpr hGet, rfl⟩

/- No key occurs twice. -/
theorem nodup_keys
    (t : Table κ α) :
    t.keys.Nodup := by
  rw [keys, List.Nodup, List.pairwise_map]
  exact t.sorted.imp fun h => Keyed.ne_of_before h

@[simp]
theorem get?_empty
    (k : κ) :
    (empty : Table κ α).get? k = none := rfl

theorem lookup_insertEntry
    (k k' : κ)
    (v : α)
    (es : List (κ × α)) :
    lookup k (insertEntry k' v es) =
      if sameKey k k' then some v else lookup k es := by
  induction es with
  | nil =>
      rw [insertEntry, lookup, sameKey]
      cases hk : Keyed.before k k' <;>
        cases hk' : Keyed.before k' k <;>
          simp [lookup, hk, hk']
  | cons e rest ih =>
      rcases e with ⟨j, w⟩
      by_cases hSame : k = k'
      · subst hSame
        have hTrue : sameKey k k = true := sameKey_iff.mpr rfl
        rw [hTrue] at ih ⊢
        have hIrrefl := Keyed.before_irrefl k
        rw [insertEntry]
        split
        case isTrue => simp [lookup, hIrrefl]
        case isFalse hNot =>
          split
          case isTrue hGt => simp [lookup, hNot, hGt, ih]
          case isFalse => simp [lookup, hIrrefl]
      · have hFalse : sameKey k k' = false := by
          cases hCase : sameKey k k' with
          | false => rfl
          | true => exact absurd (sameKey_iff.mp hCase) hSame
        rw [hFalse] at ih ⊢
        simp only [Bool.false_eq_true, if_false] at ih ⊢
        rw [insertEntry]
        split
        case isTrue hLt =>
          cases hk : Keyed.before k k' with
          | true =>
              have hkj := Keyed.before_trans hk hLt
              simp [lookup, hk, hkj]
          | false =>
              cases hk' : Keyed.before k' k with
              | true => simp [lookup, hk, hk']
              | false =>
                  exact absurd (Keyed.before_total hk hk') hSame
        case isFalse hNot =>
          split
          case isTrue hGt =>
            rw [lookup, ih]
            rfl
          case isFalse hNot' =>
            have hEq : k' = j :=
              Keyed.before_total (by simpa using hNot)
                (by simpa using hNot')
            subst hEq
            rw [lookup, lookup]
            cases hk : Keyed.before k k' with
            | true => rfl
            | false =>
                cases hk' : Keyed.before k' k with
                | true => rfl
                | false =>
                    exact absurd
                      (Keyed.before_total hk hk') hSame

/- Inserting changes the binding of one key. -/
theorem get?_insert
    (t : Table κ α)
    (k k' : κ)
    (v : α) :
    (t.insert k' v).get? k =
      if sameKey k k' then some v else t.get? k :=
  lookup_insertEntry k k' v t.entries

theorem get?_insert_self
    (t : Table κ α)
    (k : κ)
    (v : α) :
    (t.insert k v).get? k = some v := by
  rw [get?_insert, sameKey_iff.mpr rfl, if_pos rfl]

theorem get?_insert_of_ne
    (t : Table κ α)
    {k k' : κ}
    (v : α)
    (h : k ≠ k') :
    (t.insert k' v).get? k = t.get? k := by
  rw [get?_insert, if_neg]
  exact fun hSame => h (sameKey_iff.mp hSame)

/- Filtering keeps just the bindings that pass the test. -/
theorem get?_filter_eq_some_iff
    {t : Table κ α}
    {p : κ → α → Bool}
    {k : κ}
    {v : α} :
    (t.filter p).get? k = some v ↔
      t.get? k = some v ∧ p k v = true := by
  rw [← mem_entries_iff, ← mem_entries_iff, filter,
    List.mem_filter]

/- Erasing unbinds one key. -/
theorem get?_erase
    (t : Table κ α)
    (k k' : κ) :
    (t.erase k').get? k =
      if sameKey k k' then none else t.get? k := by
  apply Option.ext
  intro v
  rw [erase, get?_filter_eq_some_iff]
  cases sameKey k k' <;> simp

theorem get?_erase_self
    (t : Table κ α)
    (k : κ) :
    (t.erase k).get? k = none := by
  rw [get?_erase, sameKey_iff.mpr rfl, if_pos rfl]

theorem get?_erase_of_ne
    (t : Table κ α)
    {k k' : κ}
    (h : k ≠ k') :
    (t.erase k').get? k = t.get? k := by
  rw [get?_erase, if_neg]
  exact fun hSame => h (sameKey_iff.mp hSame)

theorem get?_mapValues
    (t : Table κ α)
    (f : α → β)
    (k : κ) :
    (t.mapValues f).get? k = (t.get? k).map f := by
  rcases t with ⟨es, hSorted⟩
  show lookup k (es.map fun e => (e.1, f e.2)) =
    (lookup k es).map f
  clear hSorted
  induction es with
  | nil => rfl
  | cons e rest ih =>
      rcases e with ⟨k', v⟩
      rw [List.map_cons, lookup, lookup]
      split
      · rfl
      · split
        · exact ih
        · rfl

theorem get?_modify
    (t : Table κ α)
    (k k' : κ)
    (f : α → α) :
    (t.modify k' f).get? k =
      if sameKey k k' then (t.get? k).map f
      else t.get? k := by
  rw [modify]
  cases hSame : sameKey k k' with
  | true =>
      have hEq := sameKey_iff.mp hSame
      subst hEq
      cases hGet : t.get? k with
      | none => simp [hGet]
      | some v => simp [get?_insert, hSame]
  | false =>
      cases t.get? k' with
      | none => simp
      | some v => simp [get?_insert, hSame]

theorem contains_iff
    {t : Table κ α}
    {k : κ} :
    t.contains k = true ↔ ∃ v, t.get? k = some v := by
  rw [contains, Option.isSome_iff_exists]

/- What is bound stays bound when a binding is made. -/
theorem contains_insert_of_contains
    {t : Table κ α}
    {k : κ}
    (h : t.contains k = true)
    (k' : κ)
    (v : α) :
    (t.insert k' v).contains k = true := by
  rw [contains, get?_insert]
  split
  · rfl
  · exact h

theorem contains_eq_false_iff
    {t : Table κ α}
    {k : κ} :
    t.contains k = false ↔ t.get? k = none := by
  rw [contains, Option.isSome_eq_false_iff,
    Option.isNone_iff_eq_none]

end Table

end PeerShare

------------------------------------------------------------
-- Equality of Tables
------------------------------------------------------------

namespace PeerShare

namespace Table

variable {κ : Type} [Keyed κ]
variable {α β γ : Type}

/- Sorted entry lists with the same members are equal. -/
theorem entries_eq_of_mem_iff
    {es fs : List (κ × α)}
    (hes : es.Pairwise
      fun a b => Keyed.before a.1 b.1 = true)
    (hfs : fs.Pairwise
      fun a b => Keyed.before a.1 b.1 = true)
    (h : ∀ e, e ∈ es ↔ e ∈ fs) :
    es = fs := by
  induction es generalizing fs with
  | nil =>
      cases fs with
      | nil => rfl
      | cons f fs =>
          exact absurd ((h f).mpr List.mem_cons_self)
            (by simp)
  | cons e es ih =>
      cases fs with
      | nil =>
          exact absurd ((h e).mp List.mem_cons_self)
            (by simp)
      | cons f fs =>
          rcases List.pairwise_cons.mp hes with ⟨hHead, hTail⟩
          rcases List.pairwise_cons.mp hfs with
            ⟨hHead', hTail'⟩
          have hAsymm : ∀ {a b : κ},
              Keyed.before a b = true →
              Keyed.before b a = true → False := by
            intro a b h₁ h₂
            have hSelf := Keyed.before_trans h₁ h₂
            rw [Keyed.before_irrefl] at hSelf
            cases hSelf
          have hEq : e = f := by
            rcases List.mem_cons.mp
              ((h e).mp List.mem_cons_self) with hef | hef
            · exact hef
            · rcases List.mem_cons.mp
                ((h f).mpr List.mem_cons_self) with hfe | hfe
              · exact hfe.symm
              · exact (hAsymm (hHead f hfe)
                  (hHead' e hef)).elim
          subst hEq
          congr 1
          apply ih hTail hTail'
          intro g
          constructor
          · intro hg
            rcases List.mem_cons.mp
              ((h g).mp (List.mem_cons_of_mem _ hg))
              with rfl | hg'
            · exact (hAsymm (hHead _ hg) (hHead _ hg)).elim
            · exact hg'
          · intro hg
            rcases List.mem_cons.mp
              ((h g).mpr (List.mem_cons_of_mem _ hg))
              with rfl | hg'
            · exact (hAsymm (hHead' _ hg) (hHead' _ hg)).elim
            · exact hg'

/- Tables with the same bindings are equal. -/
theorem eq_of_get?_eq
    {s t : Table κ α}
    (h : ∀ k, s.get? k = t.get? k) :
    s = t := by
  apply ext_entries
  apply entries_eq_of_mem_iff s.sorted t.sorted
  rintro ⟨k, v⟩
  rw [mem_entries_iff, mem_entries_iff, h]

/- A binding that is there may be made once more. -/
theorem insert_of_get?_eq
    {t : Table κ α}
    {k : κ}
    {v : α}
    (h : t.get? k = some v) :
    t.insert k v = t := by
  apply eq_of_get?_eq
  intro k'
  rw [get?_insert]
  split
  · rename_i hSame
    rw [sameKey_iff.mp hSame, h]
  · rfl

/- Nothing changes if there is no binding to remove. -/
theorem erase_of_get?_eq_none
    {t : Table κ α}
    {k : κ}
    (h : t.get? k = none) :
    t.erase k = t := by
  apply eq_of_get?_eq
  intro k'
  rw [get?_erase]
  split
  · rename_i hSame
    rw [sameKey_iff.mp hSame, h]
  · rfl

/- A binding that was not there is removed again. -/
theorem erase_insert_of_get?_eq_none
    {t : Table κ α}
    {k : κ}
    (h : t.get? k = none)
    (v : α) :
    (t.insert k v).erase k = t := by
  apply eq_of_get?_eq
  intro k'
  rw [get?_erase, get?_insert]
  split
  · rename_i hSame
    rw [sameKey_iff.mp hSame, h]
  · rfl

/- Only the last binding of a key counts. -/
theorem insert_insert_self
    (t : Table κ α)
    (k : κ)
    (v w : α) :
    (t.insert k v).insert k w = t.insert k w := by
  apply eq_of_get?_eq
  intro k'
  rw [get?_insert, get?_insert, get?_insert]
  split <;> rfl

/- A new largest key is bound behind all others. -/
theorem entries_insert_of_before
    {t : Table κ α}
    {k : κ}
    (v : α)
    (h : ∀ e ∈ t.entries, Keyed.before e.1 k = true) :
    (t.insert k v).entries = t.entries ++ [(k, v)] := by
  show insertEntry k v t.entries = t.entries ++ [(k, v)]
  generalize t.entries = es at h ⊢
  induction es with
  | nil => rfl
  | cons e rest ih =>
      rcases List.forall_mem_cons.mp h with ⟨hHead, hTail⟩
      have hNot : ¬ Keyed.before k e.1 = true := by
        intro hBefore
        have hSelf := Keyed.before_trans hBefore hHead
        rw [Keyed.before_irrefl] at hSelf
        cases hSelf
      rw [insertEntry, if_neg hNot, if_pos hHead, ih hTail,
        List.cons_append]

/- Erasing removes just the entry of the key. -/
theorem entries_erase
    [DecidableEq κ]
    (t : Table κ α)
    (k : κ) :
    (t.erase k).entries =
      t.entries.filter fun e => e.1 ≠ k := by
  unfold erase filter
  apply List.filter_congr
  intro e _
  rw [Bool.eq_iff_iff, Bool.not_eq_true',
    decide_eq_true_iff, ← Bool.not_eq_true, sameKey_iff]

theorem mapValues_insert
    (t : Table κ α)
    (k : κ)
    (v : α)
    (f : α → β) :
    (t.insert k v).mapValues f =
      (t.mapValues f).insert k (f v) := by
  apply eq_of_get?_eq
  intro k'
  rw [get?_mapValues, get?_insert, get?_insert,
    get?_mapValues]
  split <;> rfl

theorem mapValues_erase
    (t : Table κ α)
    (k : κ)
    (f : α → β) :
    (t.erase k).mapValues f = (t.mapValues f).erase k := by
  apply eq_of_get?_eq
  intro k'
  rw [get?_mapValues, get?_erase, get?_erase, get?_mapValues]
  split <;> rfl

theorem mapValues_mapValues
    (t : Table κ α)
    (f : α → β)
    (g : β → γ) :
    (t.mapValues f).mapValues g =
      t.mapValues fun v => g (f v) := by
  apply eq_of_get?_eq
  intro k
  rw [get?_mapValues, get?_mapValues, get?_mapValues,
    Option.map_map]
  rfl

/- A new value that is mapped like the old one. -/
theorem mapValues_insert_of_eq
    {t : Table κ α}
    {k : κ}
    {v w : α}
    {f : α → β}
    (hGet : t.get? k = some w)
    (hEq : f v = f w) :
    (t.insert k v).mapValues f = t.mapValues f := by
  rw [mapValues_insert]
  apply insert_of_get?_eq
  rw [get?_mapValues, hGet, hEq]
  rfl

end Table

end PeerShare

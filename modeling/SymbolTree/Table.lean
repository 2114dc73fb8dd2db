/-!
# Tables

Finite tables from segments to values, in order of first insertion. No key stands in a table
twice, so a table is determined by its entries and `get?` finds the only entry of a key.

One lemma per operation says what it does to `get?`.
-/
namespace SymbolTree

/-- A list of entries in which no key stands twice. -/
@[ext] structure Table (α : Type) where
  entries : List (String × α)
  distinct : (entries.map Prod.fst).Nodup

namespace Table

variable {α : Type}

def empty : Table α := ⟨[], List.nodup_nil⟩

def keys (table : Table α) : List String := table.entries.map Prod.fst

def values (table : Table α) : List α := table.entries.map Prod.snd

def size (table : Table α) : Nat := table.entries.length

def isEmpty (table : Table α) : Bool := table.entries.isEmpty

def get? (table : Table α) (key : String) : Option α := table.entries.lookup key

/-- Entries with `value` under `key`: in the place of the key's old entry, else behind the others. -/
def put (key : String) (value : α) : List (String × α) → List (String × α)
  | [] => [(key, value)]
  | (k, v) :: rest => if k = key then (key, value) :: rest else (k, v) :: put key value rest

theorem mem_keys_put {key other : String} {value : α} {entries : List (String × α)} :
    other ∈ (put key value entries).map Prod.fst ↔
      other = key ∨ other ∈ entries.map Prod.fst := by
  induction entries with
  | nil => simp [put]
  | cons entry rest ih => by_cases h : entry.1 = key <;> grind [put]

theorem distinct_put (key : String) (value : α) (entries : List (String × α))
    (distinct : (entries.map Prod.fst).Nodup) :
    ((put key value entries).map Prod.fst).Nodup := by
  induction entries with
  | nil => simp [put]
  | cons entry rest ih =>
    by_cases h : entry.1 = key
    · simpa [put, h] using distinct
    · simp only [put, h, if_false, List.map_cons, List.nodup_cons, mem_keys_put] at distinct ⊢
      exact ⟨by simp_all, ih distinct.2⟩

def insert (table : Table α) (key : String) (value : α) : Table α :=
  ⟨put key value table.entries, distinct_put key value _ table.distinct⟩

theorem mem_keys_insert {table : Table α} {key other : String} {value : α} :
    other ∈ (table.insert key value).keys ↔ other = key ∨ other ∈ table.keys := mem_keys_put

/-- The entries whose keys pass a test. -/
def filter (table : Table α) (keep : String → Bool) : Table α :=
  ⟨table.entries.filter fun entry => keep entry.1,
    table.distinct.sublist (List.filter_sublist.map _)⟩

def erase (table : Table α) (key : String) : Table α := table.filter (· ≠ key)

@[simp] theorem get?_empty (key : String) : (empty : Table α).get? key = none := rfl

@[grind =] theorem get?_insert (table : Table α) (key other : String) (value : α) :
    (table.insert key value).get? other = if other = key then some value else table.get? other := by
  obtain ⟨entries, distinct⟩ := table
  simp only [insert, get?]
  clear distinct
  induction entries with
  | nil => grind [put]
  | cons entry rest ih => by_cases h : entry.1 = key <;> grind [put]

@[grind =] theorem get?_filter (table : Table α) (keep : String → Bool) (key : String) :
    (table.filter keep).get? key = if keep key then table.get? key else none := by
  obtain ⟨entries, distinct⟩ := table
  simp only [filter, get?]
  clear distinct
  induction entries with
  | nil => simp
  | cons entry rest ih => by_cases h : key = entry.1 <;> grind

@[grind =] theorem get?_erase (table : Table α) (key other : String) :
    (table.erase key).get? other = if other = key then none else table.get? other := by
  by_cases h : other = key <;> simp [erase, get?_filter, h]

theorem get?_eq_some_iff (table : Table α) (key : String) (value : α) :
    table.get? key = some value ↔ (key, value) ∈ table.entries := by
  obtain ⟨entries, distinct⟩ := table
  simp only [get?]
  induction entries with
  | nil => simp
  | cons entry rest ih => grind

theorem mem_keys_iff (table : Table α) (key : String) :
    key ∈ table.keys ↔ (table.get? key).isSome := by
  rw [keys, List.mem_map, Option.isSome_iff_exists]
  constructor
  · rintro ⟨⟨_, value⟩, member, rfl⟩
    exact ⟨value, (table.get?_eq_some_iff _ value).mpr member⟩
  · rintro ⟨value, found⟩
    exact ⟨(key, value), (table.get?_eq_some_iff key value).mp found, rfl⟩

/-- Look-ups do not see the order of the entries. -/
theorem get?_of_perm {table arranged : Table α} (order : arranged.entries.Perm table.entries)
    (key : String) : arranged.get? key = table.get? key := by
  apply Option.ext
  intro value
  rw [get?_eq_some_iff, get?_eq_some_iff, order.mem_iff]

end Table
end SymbolTree

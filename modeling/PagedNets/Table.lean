/-!
Tables that keep the order in which their keys arrived. Writing to a key that is present changes
its value and leaves its place; a new key goes to the end. Nothing is hashed, so the order that
printing and drawing show is the order of the list.
-/

set_option autoImplicit false

namespace PagedNets

structure Table (κ α : Type) where
  entries : List (κ × α) := []
  deriving Repr, DecidableEq

namespace Table

variable {κ α β : Type}

def empty : Table κ α := ⟨[]⟩

instance : Inhabited (Table κ α) := ⟨empty⟩

def keys (t : Table κ α) : List κ := t.entries.map (·.1)

def values (t : Table κ α) : List α := t.entries.map (·.2)

def size (t : Table κ α) : Nat := t.entries.length

def isEmpty (t : Table κ α) : Bool := t.entries.isEmpty

variable [DecidableEq κ]

def find? (t : Table κ α) (k : κ) : Option α :=
  (t.entries.find? (fun e => decide (e.1 = k))).map (·.2)

def contains (t : Table κ α) (k : κ) : Bool :=
  t.entries.any (fun e => decide (e.1 = k))

def modify (t : Table κ α) (k : κ) (f : α → α) : Table κ α :=
  ⟨t.entries.map fun e => if e.1 = k then (e.1, f e.2) else e⟩

/-- The value at a present key is overwritten in its place; a new key goes to the end. -/
def insert (t : Table κ α) (k : κ) (a : α) : Table κ α :=
  if t.contains k then t.modify k (fun _ => a) else ⟨t.entries ++ [(k, a)]⟩

def erase (t : Table κ α) (k : κ) : Table κ α :=
  ⟨t.entries.filter fun e => !decide (e.1 = k)⟩

theorem keys_modify (t : Table κ α) (k : κ) (f : α → α) : (t.modify k f).keys = t.keys := by
  simp only [modify, keys, List.map_map]
  apply List.map_congr_left
  intro e _
  simp only [Function.comp]
  split <;> rfl

theorem contains_iff_mem_keys (t : Table κ α) (k : κ) : t.contains k = true ↔ k ∈ t.keys := by
  simp [contains, keys]

theorem find?_isSome (t : Table κ α) (k : κ) : (t.find? k).isSome = t.contains k := by
  rw [Bool.eq_iff_iff]
  simp [find?, contains, Option.isSome_map]

theorem keys_insert (t : Table κ α) (k : κ) (a : α) :
    (t.insert k a).keys = if t.contains k then t.keys else t.keys ++ [k] := by
  unfold insert
  split
  · exact keys_modify t k _
  · simp [keys]

end Table

end PagedNets

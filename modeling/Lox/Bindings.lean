/-! Finite maps from names, as lists of entries with one entry per name. -/

namespace Lox

structure Bindings (α : Type) where
  entries : List (String × α)
  deriving DecidableEq, Repr

namespace Bindings

def empty {α : Type} : Bindings α := ⟨[]⟩

def find {α : Type} (name : String) : List (String × α) → Option α
  | [] => none
  | (key, value) :: rest => if key = name then some value else find name rest

def put {α : Type} (name : String) (value : α) : List (String × α) → List (String × α)
  | [] => [(name, value)]
  | (key, old) :: rest =>
    if key = name then (key, value) :: rest else (key, old) :: put name value rest

def get? {α : Type} (b : Bindings α) (name : String) : Option α := find name b.entries

def insert {α : Type} (b : Bindings α) (name : String) (value : α) : Bindings α :=
  ⟨put name value b.entries⟩

def contains {α : Type} (b : Bindings α) (name : String) : Bool := (b.get? name).isSome

def ofList {α : Type} (entries : List (String × α)) : Bindings α :=
  entries.foldl (fun b entry => b.insert entry.1 entry.2) empty

@[simp] theorem get?_empty {α : Type} (name : String) :
    (empty : Bindings α).get? name = none := rfl

theorem find_put {α : Type} (x y : String) (value : α) (entries : List (String × α)) :
    find y (put x value entries) = if x = y then some value else find y entries := by
  induction entries with
  | nil => rfl
  | cons entry rest ih =>
    by_cases hx : entry.1 = x <;> by_cases hy : entry.1 = y <;> grind [put, find]

@[simp] theorem get?_insert {α : Type} (b : Bindings α) (x y : String) (value : α) :
    (b.insert x value).get? y = if x = y then some value else b.get? y :=
  find_put x y value b.entries

theorem put_put {α : Type} (x : String) (old value : α) (entries : List (String × α)) :
    put x value (put x old entries) = put x value entries := by
  induction entries with
  | nil => simp [put]
  | cons entry rest ih =>
    by_cases hx : entry.1 = x
    · simp [put, hx]
    · simp [put, hx, ih]

theorem insert_insert {α : Type} (b : Bindings α) (x : String) (old value : α) :
    (b.insert x old).insert x value = b.insert x value :=
  congrArg Bindings.mk (put_put x old value b.entries)

theorem mem_of_find {α : Type} {name : String} {value : α} {entries : List (String × α)}
    (h : find name entries = some value) : (name, value) ∈ entries := by
  induction entries with
  | nil => cases h
  | cons entry rest ih => grind [find]

theorem mem_of_get? {α : Type} {b : Bindings α} {name : String} {value : α}
    (h : b.get? name = some value) : (name, value) ∈ b.entries := mem_of_find h

theorem mem_of_mem_put {α : Type} {name : String} {value : α} {entry : String × α}
    {entries : List (String × α)} (h : entry ∈ put name value entries) :
    entry = (name, value) ∨ entry ∈ entries := by
  induction entries with
  | nil => simpa [put] using h
  | cons first rest ih => grind [put]

theorem mem_of_mem_foldl {α : Type} {entry : String × α} (entries : List (String × α)) :
    ∀ b : Bindings α,
    entry ∈ (entries.foldl (fun b entry => b.insert entry.1 entry.2) b).entries →
    entry ∈ entries ∨ entry ∈ b.entries := by
  induction entries with
  | nil => exact fun b h => .inr h
  | cons first rest ih =>
    intro b h
    rcases ih _ h with hm | hm
    · exact .inl (.tail _ hm)
    · rcases mem_of_mem_put hm with rfl | hm
      · exact .inl (.head _)
      · exact .inr hm

/-- A map made from a list has no entry that is not in the list. -/
theorem mem_of_mem_ofList {α : Type} {entry : String × α} {entries : List (String × α)}
    (h : entry ∈ (ofList entries).entries) : entry ∈ entries :=
  (mem_of_mem_foldl entries empty h).resolve_right List.not_mem_nil

end Bindings

end Lox

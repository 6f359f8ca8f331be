/-!
# Ordered association lists

Finite maps that keep the order in which their keys were first inserted. Writing to a present key
replaces its value in place.
-/
namespace SchemaCompiler.Assoc

variable {κ α : Type} [BEq κ]

def get? (key : κ) (entries : List (κ × α)) : Option α := entries.lookup key

def contains (key : κ) (entries : List (κ × α)) : Bool := (get? key entries).isSome

def insert (key : κ) (value : α) : List (κ × α) → List (κ × α)
  | [] => [(key, value)]
  | (k, v) :: rest => if k == key then (k, value) :: rest else (k, v) :: insert key value rest

/-- Inserts the entries one after the other: a repeated key keeps its first place and takes its
last value. -/
def ofList (entries : List (κ × α)) : List (κ × α) :=
  entries.foldl (fun acc e => insert e.1 e.2 acc) []

@[simp] theorem get?_nil (key : κ) : get? key ([] : List (κ × α)) = none := rfl

@[simp] theorem insert_nil (key : κ) (value : α) : insert key value [] = [(key, value)] := rfl

theorem get?_insert_self [LawfulBEq κ] (key : κ) (value : α) (entries : List (κ × α)) :
    get? key (insert key value entries) = some value := by
  induction entries with
  | nil => simp [get?, insert]
  | cons e rest ih =>
    obtain ⟨k, v⟩ := e
    by_cases h : k = key
    · subst h; simp [get?, insert]
    · have hk : (k == key) = false := by simpa using h
      have hk' : (key == k) = false := by simpa using fun e => h e.symm
      simpa [get?, insert, hk, List.lookup_cons, hk'] using ih

theorem get?_insert_of_ne [LawfulBEq κ] {key other : κ} (h : other ≠ key) (value : α)
    (entries : List (κ × α)) :
    get? other (insert key value entries) = get? other entries := by
  induction entries with
  | nil =>
    have : (other == key) = false := by simpa using h
    simp [get?, insert, List.lookup_cons, this]
  | cons e rest ih =>
    obtain ⟨k, v⟩ := e
    by_cases hk : k = key
    · subst hk
      have : (other == k) = false := by simpa using h
      simp [get?, insert, List.lookup_cons, this]
    · have hk' : (k == key) = false := by simpa using hk
      simp only [get?] at ih
      simp [get?, insert, hk', List.lookup_cons, ih]

end SchemaCompiler.Assoc

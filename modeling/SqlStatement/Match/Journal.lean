namespace SqlStatement

/-- Entries in the order in which they were written. Two journals are appended in
    constant time, and `toList` is their meaning. -/
inductive Journal (α : Type) where
  | empty
  | single (entry : α)
  | append (first second : Journal α)

namespace Journal

variable {α : Type}

instance : Append (Journal α) := ⟨Journal.append⟩

instance : Inhabited (Journal α) := ⟨.empty⟩

/-- The entries in front of a list. -/
def toListAppend : Journal α → List α → List α
  | .empty, rest => rest
  | .single entry, rest => entry :: rest
  | .append first second, rest => first.toListAppend (second.toListAppend rest)

/-- The entries in order. -/
def toList (j : Journal α) : List α := j.toListAppend []

def ofList (entries : List α) : Journal α :=
  entries.foldr (fun entry rest => .append (.single entry) rest) .empty

/-- The reader with an accumulator lists the entries in front of what it is given,
    so it agrees with plain appending. -/
theorem toListAppend_eq (j : Journal α) (rest : List α) :
    j.toListAppend rest = j.toList ++ rest := by
  induction j generalizing rest with
  | empty => rfl
  | single entry => rfl
  | append first second ihFirst ihSecond =>
    rw [toList, toListAppend, toListAppend, ihSecond, ihFirst, ihSecond [], ihFirst]
    simp

@[simp] theorem toList_empty : (.empty : Journal α).toList = [] := rfl

@[simp] theorem toList_single (entry : α) : (.single entry : Journal α).toList = [entry] := rfl

/-- Appending journals appends their entries. -/
@[simp] theorem toList_append (a b : Journal α) : (a ++ b).toList = a.toList ++ b.toList := by
  show a.toListAppend b.toList = a.toList ++ b.toList
  rw [toListAppend_eq]

/-- A journal that was filled from a list has the entries of the list. -/
@[simp] theorem toList_ofList (entries : List α) : (ofList entries).toList = entries := by
  induction entries with
  | nil => rfl
  | cons entry rest ih =>
    show [entry] ++ (ofList rest).toList = entry :: rest
    rw [ih]
    rfl

end Journal

end SqlStatement

namespace FixedNet.Text

def splitAll (sep : Char) : List Char → List (List Char)
  | [] => [[]]
  | c :: cs =>
    if c = sep then [] :: splitAll sep cs
    else match splitAll sep cs with
      | [] => [[c]]
      | piece :: pieces => (c :: piece) :: pieces

/-- What stands before and after the first separator. -/
def splitFirst (sep : Char) : List Char → Option (List Char × List Char)
  | [] => none
  | c :: cs =>
    if c = sep then some ([], cs)
    else (splitFirst sep cs).map fun p ↦ (c :: p.1, p.2)

/-- The text after `front`, if it starts with that. -/
def stripFront : List Char → List Char → Option (List Char)
  | [], cs => some cs
  | _ :: _, [] => none
  | f :: front, c :: cs => if f = c then stripFront front cs else none

/-- The text before a last character `last`, if it ends with that. -/
def stripLast (last : Char) (cs : List Char) : Option (List Char) :=
  if cs.getLast? = some last then some cs.dropLast else none

def lower (cs : List Char) : List Char := cs.map Char.toLower

def upper (cs : List Char) : List Char := cs.map Char.toUpper

theorem splitAll_ne_nil (sep : Char) (cs : List Char) : splitAll sep cs ≠ [] := by
  cases cs with
  | nil => simp [splitAll]
  | cons c cs =>
    rw [splitAll]
    split
    · simp
    · split <;> simp

theorem stripFront_append (front cs : List Char) : stripFront front (front ++ cs) = some cs := by
  induction front with
  | nil => rfl
  | cons f front ih => simp [stripFront, ih]

theorem stripLast_append (last : Char) (cs : List Char) : stripLast last (cs ++ [last]) = some cs := by
  simp [stripLast]

end FixedNet.Text

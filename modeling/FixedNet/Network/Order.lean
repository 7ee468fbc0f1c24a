namespace FixedNet

variable {n : Nat}

/-- A node is read once more, by the given reader. -/
def countEdge {α : Type} (change : Fin n → α → α) (reader : Fin n) (table : Vector α n) (i : Fin n) : Vector α n :=
  table.set i (change reader table[i])

/-- Goes along the edges, reader by reader, and changes the entry of the node that is read. -/
def alongEdges {α : Type} (inputs : Fin n → List (Fin n)) (change : Fin n → α → α) (start : α) : Vector α n :=
  (List.finRange n).foldl (fun table reader ↦ (inputs reader).foldl (countEdge change reader) table)
    (Vector.replicate n start)

def consumers (inputs : Fin n → List (Fin n)) : Vector (List (Fin n)) n :=
  alongEdges inputs (fun reader readers ↦ readers ++ [reader]) []

def consumerCounts (inputs : Fin n → List (Fin n)) : Vector Nat n := alongEdges inputs (fun _ count ↦ count + 1) 0

/-- The search for an order: how many inputs every node still waits for, the nodes that wait for none, and those
taken. -/
structure Search (n : Nat) where
  pending : Vector Nat n
  ready : List (Fin n)
  order : List (Fin n)

namespace Search

def start (inputs : Fin n → List (Fin n)) : Search n :=
  let pending := Vector.ofFn fun i ↦ (inputs i).length
  ⟨pending, (List.finRange n).filter fun i ↦ pending[i] = 0, []⟩

/-- An input of a node has been taken. With the last one the node is ready. -/
def arrive (s : Search n) (reader : Fin n) : Search n :=
  let left := s.pending[reader] - 1
  { s with pending := s.pending.set reader left, ready := if left = 0 then s.ready ++ [reader] else s.ready }

/-- Takes the node that has been ready for longest. -/
def step (consumers : Vector (List (Fin n)) n) (s : Search n) : Search n :=
  match s.ready with
  | [] => s
  | i :: ready => consumers[i].foldl arrive { s with ready, order := s.order ++ [i] }

/-- Takes so many nodes, or all that become ready. -/
def drain (consumers : Vector (List (Fin n)) n) : Nat → Search n → Search n
  | 0, s => s
  | k + 1, s => drain consumers k (s.step consumers)

end Search

/-- An order in which nodes come after the nodes they read, those first that were ready first. Nothing if some never
become ready, which is a cycle. -/
def topologicalOrder (inputs : Fin n → List (Fin n)) : Option (List (Fin n)) :=
  let order := (Search.drain (consumers inputs) n (.start inputs)).order
  if order.length = n then some order else none

end FixedNet

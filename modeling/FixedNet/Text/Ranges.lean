namespace FixedNet.Text

abbrev Ranges := List (Nat × Nat)

def inRanges (rs : Ranges) (c : Char) : Bool := rs.any fun r ↦ r.1 ≤ c.toNat && c.toNat ≤ r.2

end FixedNet.Text

namespace FixedNet.Power

scoped instance natural : Pow Nat Nat := instPowNat

scoped instance integer : Pow Int Nat := instPowNat

end FixedNet.Power

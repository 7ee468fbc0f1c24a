import FixedNet.Inference.Run
import FixedNet.Proofs.Numeric.Arithmetic

namespace FixedNet

/-- One operation on its operands. A narrowing names the slot whose format it goes into. -/
inductive Event
  | product (x y : Fixed)
  | sum (x y : Fixed)
  | narrowing (slot : Slot) (f : Format) (x : Fixed)

/-- Whether 128 bits are enough for the operation; narrowing needs no more. -/
def Event.Fits : Event → Prop
  | product x y => FitsWord (x.raw * y.raw)
  | sum x y => x.SumFits y
  | narrowing .. => True

structure Recorded (α : Type) where
  events : List Event
  value : α

namespace Recorded

variable {α β : Type}

instance : Monad Recorded where
  pure a := ⟨[], a⟩
  bind r f := ⟨r.events ++ (f r.value).events, (f r.value).value⟩

@[simp]
theorem pure_value (a : α) : (pure a : Recorded α).value = a := rfl

@[simp]
theorem bind_value (r : Recorded α) (f : α → Recorded β) : (r >>= f).value = (f r.value).value := rfl

instance : LawfulMonad Recorded := LawfulMonad.mk' Recorded
  (fun _ ↦ by simp [Functor.map]) (fun _ _ ↦ by simp [bind, pure]) (fun _ _ _ ↦ by simp [bind])

@[simp]
theorem mapM_value (f : α → Recorded β) (xs : List α) : (xs.mapM f).value = xs.map fun x ↦ (f x).value := by
  induction xs with
  | nil => rfl
  | cons x xs ih =>
    rw [List.mapM_cons]
    exact congrArg ((f x).value :: ·) ih

@[simp]
theorem mapM_events (f : α → Recorded β) (xs : List α) : (xs.mapM f).events = xs.flatMap fun x ↦ (f x).events := by
  induction xs with
  | nil => rfl
  | cons x xs ih =>
    rw [List.mapM_cons, List.flatMap_cons, ← ih]
    exact congrArg ((f x).events ++ ·) (List.append_nil _)

def mul (x y : Fixed) : Recorded Fixed := ⟨[.product x y], x.times y⟩

def add (x y : Fixed) : Recorded Fixed := ⟨[.sum x y], x.plus y⟩

def narrow (slot : Slot) (f : Format) (x : Fixed) : Recorded Fixed := ⟨[.narrowing slot f x], x.narrow f⟩

def All (P : Event → Prop) (r : Recorded α) : Prop := ∀ e ∈ r.events, P e

variable {P : Event → Prop}

@[simp]
theorem all_pure (a : α) : (pure a : Recorded α).All P := fun _ he ↦ absurd he List.not_mem_nil

theorem all_bind {r : Recorded α} {f : α → Recorded β} : (r >>= f).All P ↔ r.All P ∧ (f r.value).All P :=
  List.forall_mem_append

theorem all_mapM {f : α → Recorded β} {xs : List α} : (xs.mapM f).All P ↔ ∀ x ∈ xs, (f x).All P := by
  simp only [All, mapM_events, List.mem_flatMap]
  exact ⟨fun h x hx e he ↦ h e ⟨x, hx, he⟩, fun h e ⟨x, hx, he⟩ ↦ h x hx e he⟩

@[simp]
theorem all_mul (x y : Fixed) : (mul x y).All P ↔ P (.product x y) := by simp [All, mul]

@[simp]
theorem all_add (x y : Fixed) : (add x y).All P ↔ P (.sum x y) := by simp [All, add]

@[simp]
theorem all_narrow (slot : Slot) (f : Format) (x : Fixed) : (narrow slot f x).All P ↔ P (.narrowing slot f x) := by
  simp [All, narrow]

def Fits (r : Recorded α) : Prop := r.All Event.Fits

theorem fits_bind {r : Recorded α} {f : α → Recorded β} : (r >>= f).Fits ↔ r.Fits ∧ (f r.value).Fits := all_bind

theorem fits_mul (x y : Fixed) : (mul x y).Fits ↔ FitsWord (x.raw * y.raw) := all_mul x y

theorem fits_add (x y : Fixed) : (add x y).Fits ↔ x.SumFits y := all_add x y

theorem fits_narrow (slot : Slot) (f : Format) (x : Fixed) : (narrow slot f x).Fits := (all_narrow slot f x).mpr trivial

/-- An outcome that is the recorded value if every operation fits, and an error of a certain kind otherwise. -/
structure Agrees {ε : Type} (kind : ε → Prop) (outcome : Except ε α) (r : Recorded α) : Prop where
  of_fits : r.Fits → outcome = .ok r.value
  of_not_fits : ¬ r.Fits → ∃ e, kind e ∧ outcome = .error e

variable {ε : Type} {kind : ε → Prop}

/-- An outcome that is not an error. -/
theorem Agrees.of_ok {outcome : Except ε α} {r : Recorded α} (h : Agrees kind outcome r) {a : α}
    (ha : outcome = .ok a) : r.Fits ∧ a = r.value := by
  by_cases hfits : r.Fits
  · exact ⟨hfits, Except.ok.inj (ha.symm.trans (h.of_fits hfits))⟩
  · obtain ⟨e, -, he⟩ := h.of_not_fits hfits
    cases ha.symm.trans he

theorem Agrees.pure (a : α) : Agrees kind (.ok a) (pure a) := ⟨fun _ ↦ rfl, fun h ↦ absurd (all_pure a) h⟩

theorem Agrees.bind_of_fits {outcome : Except ε α} {r : Recorded α} {f : α → Except ε β} {g : α → Recorded β}
    (h : Agrees kind outcome r) (hf : r.Fits → Agrees kind (f r.value) (g r.value)) :
    Agrees kind (outcome >>= f) (r >>= g) := by
  by_cases hr : r.Fits
  · have hf := hf hr
    rw [h.of_fits hr]
    exact ⟨fun hb ↦ hf.of_fits (fits_bind.mp hb).2, fun hb ↦ hf.of_not_fits fun hg ↦ hb (fits_bind.mpr ⟨hr, hg⟩)⟩
  · obtain ⟨e, he, ho⟩ := h.of_not_fits hr
    rw [ho]
    exact ⟨fun hb ↦ absurd (fits_bind.mp hb).1 hr, fun _ ↦ ⟨e, he, rfl⟩⟩

theorem Agrees.bind {outcome : Except ε α} {r : Recorded α} {f : α → Except ε β} {g : α → Recorded β}
    (h : Agrees kind outcome r) (hf : Agrees kind (f r.value) (g r.value)) :
    Agrees kind (outcome >>= f) (r >>= g) :=
  h.bind_of_fits fun _ ↦ hf

theorem Agrees.mapM {f : α → Except ε β} {g : α → Recorded β} {xs : List α}
    (h : ∀ x ∈ xs, Agrees kind (f x) (g x)) : Agrees kind (xs.mapM f) (xs.mapM g) := by
  induction xs with
  | nil => exact .pure []
  | cons x xs ih =>
    rw [List.mapM_cons, List.mapM_cons]
    refine (h x List.mem_cons_self).bind ?_
    exact (ih fun y hy ↦ h y (List.mem_cons_of_mem x hy)).bind (.pure _)

theorem Agrees.mapError {ε' : Type} {kind' : ε' → Prop} {outcome : Except ε α} {r : Recorded α} {wrap : ε → ε'}
    (h : Agrees kind outcome r) (hw : ∀ e, kind e → kind' (wrap e)) : Agrees kind' (outcome.mapError wrap) r := by
  constructor
  · intro hr
    rw [h.of_fits hr]
    rfl
  · intro hr
    obtain ⟨e, he, ho⟩ := h.of_not_fits hr
    rw [ho]
    exact ⟨wrap e, hw e he, rfl⟩

end Recorded

def NumericError.IsOverflow (e : NumericError) : Prop := ∃ o, e = .overflow o

def FaultReason.IsOverflow (r : FaultReason) : Prop := ∃ o, r = .numeric (.overflow o)

open Recorded (Agrees)

theorem Fixed.mul_agrees (x y : Fixed) : Agrees NumericError.IsOverflow (x.mul y) (Recorded.mul x y) :=
  ⟨fun h ↦ mul_ok ((Recorded.fits_mul x y).mp h),
    fun h ↦ ⟨_, ⟨_, rfl⟩, mul_error fun hf ↦ h ((Recorded.fits_mul x y).mpr hf)⟩⟩

theorem Fixed.add_agrees (x y : Fixed) : Agrees NumericError.IsOverflow (x.add y) (Recorded.add x y) := by
  refine ⟨fun h ↦ add_ok ((Recorded.fits_add x y).mp h), fun h ↦ ?_⟩
  obtain ⟨o, ho⟩ := add_error fun hf ↦ h ((Recorded.fits_add x y).mpr hf)
  exact ⟨_, ⟨o, rfl⟩, ho⟩

theorem Fixed.narrow_agrees (slot : Slot) (f : Format) (x : Fixed) :
    Agrees NumericError.IsOverflow (.ok (x.narrow f)) (Recorded.narrow slot f x) :=
  ⟨fun _ ↦ rfl, fun h ↦ absurd (Recorded.fits_narrow slot f x) h⟩

def recordProduct (slot : Slot) (f : Format) (x y : Fixed) : Recorded Fixed := do
  let product ← Recorded.mul x y
  Recorded.narrow slot f product

def recordSum (slot : Slot) (f : Format) (x y : Fixed) : Recorded Fixed := do
  let sum ← Recorded.add x y
  Recorded.narrow slot f sum

def recordProducts (accum : Format) : Fixed → List (Fixed × Fixed) → Recorded Fixed
  | acc, [] => pure acc
  | acc, (x, w) :: terms => do
    let product ← recordProduct .accum accum x w
    let acc ← recordSum .accum accum acc product
    recordProducts accum acc terms

def recordTerms (accum : Format) : Fixed → List Fixed → Recorded Fixed
  | acc, [] => pure acc
  | acc, x :: xs => do
    let acc ← recordSum .accum accum acc x
    recordTerms accum acc xs

def recordEntries (accum : Format) : List Fixed → List Fixed → Recorded (List Fixed)
  | acc :: accs, x :: xs => do
    let sum ← recordSum .accum accum acc x
    let rest ← recordEntries accum accs xs
    return sum :: rest
  | accs, _ => pure accs

def Neuron.record (u : Neuron) (accum : Format) (inputs : List Fixed) : Recorded Fixed := do
  let zero ← Recorded.narrow .accum accum .zero
  let acc ← recordProducts accum zero (inputs.zip u.weights)
  match u.scale with
  | some s => Recorded.mul acc s
  | none => return acc

def ExpTable.record (exp : ExpTable) : List Fixed → Recorded (List Fixed)
  | [] => pure []
  | x :: xs =>
    let largest := xs.foldl Fixed.larger x
    (x :: xs).mapM fun y ↦ do
      let d ← Recorded.add y largest.opposite
      return exp.lookup d

/-- The fixed-point value that stands for a number, zero for what is not finite. -/
def Fixed.quantized (f : Format) (x : Float) : Fixed := ((Fixed.ofFloat f x).toOption).getD .zero

def Kernel.record (k : Kernel) (row : List Float) (inputs : List (List Fixed)) : Recorded (List Fixed) :=
  let first := inputs.head?.getD []
  match k with
  | input result => pure (row.map (Fixed.quantized result))
  | dense units accum result => do
    let sums ← units.mapM fun u ↦ u.record accum first
    (sums.zip units).mapM fun p ↦ recordSum .result result p.1 p.2.bias
  | batchNorm channels accum result => do
    let scaled ← (first.zip channels).mapM fun p ↦ recordProduct .accum accum p.1 p.2.1
    (scaled.zip channels).mapM fun p ↦ recordSum .result result p.1 p.2.2
  | activation shape result => (first.map shape.apply).mapM (Recorded.narrow .result result)
  | softmax exp inv accum result => do
    let exps ← exp.record first
    let zero ← Recorded.narrow .accum accum .zero
    let sum ← recordTerms accum zero exps
    exps.mapM fun e ↦ recordProduct .result result e (inv.lookup sum)
  | add accum result => do
    let zeros ← (first.map fun _ ↦ Fixed.zero).mapM (Recorded.narrow .accum accum)
    let sums ← inputs.foldlM (recordEntries accum) zeros
    sums.mapM (Recorded.narrow .result result)
  | concatenate result => inputs.flatten.mapM (Recorded.narrow .result result)

def recordBipolar (x : Fixed) : Recorded Fixed := do
  let doubled ← Recorded.add x x
  Recorded.add doubled Fixed.one.opposite

def recordDecoded (decode : Bool) (xs : List Fixed) : Recorded (List Fixed) :=
  if decode then xs.mapM recordBipolar else pure xs

def Step.record {n : ℕ} (s : Step n) (row : List Float) (values : Vector (List Fixed) n) : Recorded (List Fixed) := do
  let inputs ← s.inputs.mapM fun i ↦ recordDecoded i.2 (values.get i.1)
  s.kernel.record row inputs

end FixedNet

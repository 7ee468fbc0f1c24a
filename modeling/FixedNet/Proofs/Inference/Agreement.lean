import FixedNet.Proofs.Inference.Recorded
import FixedNet.Proofs.Inference.Work

namespace FixedNet

open Recorded (Agrees)

theorem recordProduct_agrees (slot : Slot) (f : Format) (x y : Fixed) :
    Agrees NumericError.IsOverflow (Kernel.productWith x y f) (recordProduct slot f x y) :=
  (x.mul_agrees y).bind (Fixed.narrow_agrees slot f _)

theorem recordSum_agrees (slot : Slot) (f : Format) (x y : Fixed) :
    Agrees NumericError.IsOverflow (Kernel.sumWith x y f) (recordSum slot f x y) :=
  (x.add_agrees y).bind (Fixed.narrow_agrees slot f _)

theorem recordProducts_agrees (accum : Format) (acc : Fixed) (terms : List (Fixed × Fixed)) :
    Agrees NumericError.IsOverflow (accumulateProducts accum acc terms) (recordProducts accum acc terms) := by
  induction terms generalizing acc with
  | nil => exact .pure acc
  | cons p terms ih =>
    have h : accumulateProducts accum acc (p :: terms) =
        Kernel.productWith p.1 p.2 accum >>= fun product ↦ Kernel.sumWith acc product accum >>= fun acc ↦
          accumulateProducts accum acc terms := by
      simp only [accumulateProducts, Kernel.productWith, Kernel.sumWith, bind_assoc, pure_bind]
    rw [h]
    exact (recordProduct_agrees .accum accum p.1 p.2).bind ((recordSum_agrees .accum accum acc _).bind (ih _))

theorem recordTerms_agrees (accum : Format) (acc : Fixed) (xs : List Fixed) :
    Agrees NumericError.IsOverflow (accumulateTerms accum acc xs) (recordTerms accum acc xs) := by
  induction xs generalizing acc with
  | nil => exact .pure acc
  | cons x xs ih =>
    have h : accumulateTerms accum acc (x :: xs) =
        Kernel.sumWith acc x accum >>= fun acc ↦ accumulateTerms accum acc xs := by
      simp only [accumulateTerms, Kernel.sumWith, bind_assoc, pure_bind]
    rw [h]
    exact (recordSum_agrees .accum accum acc x).bind (ih _)

theorem recordEntries_agrees (accum : Format) (accs xs : List Fixed) :
    Agrees NumericError.IsOverflow (accumulateEntries accum accs xs) (recordEntries accum accs xs) := by
  induction accs generalizing xs with
  | nil => exact .pure []
  | cons acc accs ih =>
    cases xs with
    | nil => exact .pure (acc :: accs)
    | cons x xs =>
      have h : accumulateEntries accum (acc :: accs) (x :: xs) =
          Kernel.sumWith acc x accum >>= fun sum ↦ accumulateEntries accum accs xs >>= fun rest ↦
            pure (sum :: rest) := by
        simp only [accumulateEntries, Kernel.sumWith, bind_assoc, pure_bind]
      rw [h]
      exact (recordSum_agrees .accum accum acc x).bind ((ih xs).bind (.pure _))

theorem foldlM_recordEntries_agrees (accum : Format) (accs : List Fixed) (xss : List (List Fixed)) :
    Agrees NumericError.IsOverflow (xss.foldlM (accumulateEntries accum) accs)
      (xss.foldlM (recordEntries accum) accs) := by
  induction xss generalizing accs with
  | nil => exact .pure accs
  | cons xs xss ih => exact (recordEntries_agrees accum accs xs).bind (ih _)

theorem Neuron.record_agrees (u : Neuron) (accum : Format) (inputs : List Fixed) :
    Agrees NumericError.IsOverflow (u.sum accum inputs) (u.record accum inputs) := by
  have h := recordProducts_agrees accum (Fixed.zero.narrow accum) (inputs.zip u.weights)
  refine (Fixed.narrow_agrees .accum accum .zero).bind (f := fun _ ↦ u.sum accum inputs) (h.bind ?_)
  cases u.scale with
  | none => exact .pure _
  | some s => exact Fixed.mul_agrees _ s

theorem Fixed.foldl_larger_mem (x : Fixed) (xs : List Fixed) : xs.foldl Fixed.larger x ∈ x :: xs := by
  induction xs generalizing x with
  | nil => exact List.mem_singleton.mpr rfl
  | cons y xs ih =>
    rw [List.foldl_cons]
    rcases List.mem_cons.mp (ih (x.larger y)) with h | h
    · rw [h, larger]
      split <;> simp
    · exact List.mem_cons_of_mem x (List.mem_cons_of_mem y h)

theorem ExpTable.record_agrees (exp : ExpTable) {xs : List Fixed} (h : ∀ x ∈ xs, FitsWord (-x.raw)) :
    Agrees NumericError.IsOverflow (exp.lookupAll xs) (exp.record xs) := by
  cases xs with
  | nil => exact .pure []
  | cons x xs =>
    refine .mapM fun y _ ↦ ?_
    rw [Fixed.sub_eq (h _ (Fixed.foldl_larger_mem x xs))]
    exact (y.add_agrees _).bind (.pure _)

theorem recordBipolar_agrees (x : Fixed) :
    Agrees NumericError.IsOverflow x.decodeBipolar (recordBipolar x) := by
  refine (x.add_agrees x).bind ?_
  rw [Fixed.sub_eq (by decide)]
  exact Fixed.add_agrees _ _

theorem recordDecoded_agrees (decode : Bool) (xs : List Fixed) :
    Agrees NumericError.IsOverflow (decodeInput decode xs) (recordDecoded decode xs) := by
  cases decode with
  | false => exact .pure xs
  | true => exact .mapM fun x _ ↦ recordBipolar_agrees x

/-- A fault of a layer whose arithmetic overflows. -/
def Fault.IsOverflow (f : Fault) : Prop := f.reason.IsOverflow

theorem Recorded.Agrees.toFault {α : Type} {outcome : Except NumericError α} {r : Recorded α}
    (h : Agrees NumericError.IsOverflow outcome r) (p : Progress) :
    Agrees Fault.IsOverflow (outcome.mapError fun e ↦ p.fault (.numeric e)) r :=
  h.mapError fun _ ⟨o, ho⟩ ↦ ⟨o, congrArg _ ho⟩

theorem narrow_mapM_agrees {ε : Type} (kind : ε → Prop) (slot : Slot) (f : Format) (xs : List Fixed) :
    Agrees kind (.ok (xs.map (Fixed.narrow f))) (xs.mapM (Recorded.narrow slot f)) := by
  refine ⟨fun _ ↦ ?_, fun h ↦ absurd ?_ h⟩
  · rw [Recorded.mapM_value]
    rfl
  · exact Recorded.all_mapM.mpr fun x _ ↦ Recorded.fits_narrow slot f x

theorem recordTerms_zero_agrees (accum : Format) (exps : List Fixed) :
    Agrees NumericError.IsOverflow (accumulateTerms accum (Fixed.zero.narrow accum) exps)
      (Recorded.narrow .accum accum .zero >>= fun zero ↦ recordTerms accum zero exps) :=
  (Fixed.narrow_agrees .accum accum .zero).bind (f := fun zero ↦ accumulateTerms accum zero exps)
    (recordTerms_agrees accum _ exps)

def recordSums (accum : Format) (xss : List (List Fixed)) : Recorded (List Fixed) := do
  let zeros ← ((xss.head?.getD []).map fun _ ↦ Fixed.zero).mapM (Recorded.narrow .accum accum)
  xss.foldlM (recordEntries accum) zeros

theorem recordSums_agrees (accum : Format) (xss : List (List Fixed)) :
    Agrees NumericError.IsOverflow
      (xss.foldlM (accumulateEntries accum) (List.replicate (xss.head?.getD []).length (Fixed.zero.narrow accum)))
      (recordSums accum xss) := by
  have hzeros := narrow_mapM_agrees NumericError.IsOverflow .accum accum ((xss.head?.getD []).map fun _ ↦ Fixed.zero)
  rw [List.map_map, Function.comp_def, List.map_const'] at hzeros
  refine hzeros.bind (f := fun zeros ↦ xss.foldlM (accumulateEntries accum) zeros) ?_
  rw [Recorded.mapM_value, List.map_map, Function.comp_def, List.map_const']
  exact foldlM_recordEntries_agrees accum _ xss

def Kernel.isInput : Kernel → Bool
  | input _ => true
  | _ => false

/-- A layer on its decoded inputs. The differences of a softmax layer are sums with an opposite, which exists for
every word but the least. -/
theorem Kernel.record_agrees (k : Kernel) (hk : k.isInput = false) (inputFeatures : ℕ) (row : List Float)
    (inputs : List (List Fixed)) (hw : ∀ xs ∈ inputs, ∀ x ∈ xs, FitsWord (-x.raw)) (p : Progress) :
    Agrees Fault.IsOverflow (k.run inputFeatures row inputs p).1 (k.record row inputs) := by
  have hmem : ∀ x ∈ inputs.head?.getD [], FitsWord (-x.raw) := by
    cases inputs with
    | nil => simp
    | cons xs xss => exact hw xs List.mem_cons_self
  cases k with
  | input result => cases hk
  | dense units accum result =>
    simp only [run, Work.fst_enter_bind, Work.fst_calculate_bind, Work.fst_calculate]
    refine Agrees.bind (.toFault (.mapM fun (u : Neuron) _ ↦ u.record_agrees accum _) _) ?_
    exact .toFault (.mapM fun p _ ↦ recordSum_agrees .result result p.1 p.2.bias) _
  | batchNorm channels accum result =>
    simp only [run, Work.fst_enter_bind, Work.fst_calculate_bind, Work.fst_calculate]
    refine Agrees.bind (.toFault (.mapM fun p _ ↦ recordProduct_agrees .accum accum p.1 p.2.1) _) ?_
    exact .toFault (.mapM fun p _ ↦ recordSum_agrees .result result p.1 p.2.2) _
  | activation shape result =>
    simp only [run, Work.fst_enter_bind, Work.fst_pure]
    exact narrow_mapM_agrees _ .result result _
  | softmax exp inv accum result =>
    simp only [run, Work.fst_enter_bind, Work.fst_calculate_bind, Work.fst_calculate]
    refine ((exp.record_agrees hmem).toFault _).bind ?_
    rw [← bind_assoc]
    refine ((recordTerms_zero_agrees accum _).toFault _).bind ?_
    exact .toFault (.mapM fun e _ ↦ recordProduct_agrees .result result e _) _
  | add accum result =>
    have hrecord : (add accum result).record row inputs =
        recordSums accum inputs >>= fun sums ↦ sums.mapM (Recorded.narrow .result result) := by
      simp only [Kernel.record, recordSums, bind_assoc]
    rw [hrecord]
    simp only [run, Work.fst_enter_bind, Work.fst_calculate_bind, Work.fst_pure]
    exact ((recordSums_agrees accum inputs).toFault _).bind (narrow_mapM_agrees _ .result result _)
  | concatenate result =>
    simp only [run, Work.fst_enter_bind, Work.fst_pure]
    exact narrow_mapM_agrees _ .result result _

end FixedNet

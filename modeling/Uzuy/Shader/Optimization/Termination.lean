import Uzuy.Shader.Optimization.Placement
import Uzuy.Shader.Optimization.Composite

/-!
# The pass never diverges

The only loops of `ConstantPropagationPass` that are not bounded by the program's size are the
walks through `Identity` chains in `Value::Resolve` and through inserts in
`FoldCompositeExtractImpl`. In SSA form the uses outside phis are acyclic, so on a well-formed
program both walks end within the arena's size: every value a fold reads is an operand of the
program, or what one resolves to, and resolves; the composite walk terminates; and every fold
leaves the program well formed for the next one. So the pass never diverges on a well-formed
program: when it fails, it throws one of the `LogicError`s of the C++, for a bit-field extract
out of range or a read of the wrong type.
-/

namespace Shader.Optimization

open Shader.IR
open Program (isImmediate_ne_diverges instRecursive_ne_diverges resolve_ne_diverges u1_ne_diverges
  u32_ne_diverges u64_ne_diverges f32_ne_diverges reg_ne_diverges pred_ne_diverges attr_ne_diverges)

theorem bitFieldUExtractImm_ne_diverges (base shift count : BitVec 32) :
    bitFieldUExtractImm base shift count ≠ .error .diverges := by
  unfold bitFieldUExtractImm
  split <;> nofun

theorem bitFieldSExtractImm_ne_diverges (base shift count : BitVec 32) :
    bitFieldSExtractImm base shift count ≠ .error .diverges := by
  dsimp only [bitFieldSExtractImm]
  split <;> nofun

section Folds

variable {p : Program} {Γ : Nat → Ty} {D : Dominance} {block inst : Nat} (wf : p.WellFormed Γ D)
include wf

theorem foldGetRegister_ne_diverges : foldGetRegister p inst ≠ .error .diverges :=
  bind_ne_error (reg_ne_diverges (wf.arg_resolves _ _)) fun _ _ =>
    ite_ne_error pure_ne_error pure_ne_error

theorem foldGetPred_ne_diverges : foldGetPred p inst ≠ .error .diverges :=
  bind_ne_error (pred_ne_diverges (wf.arg_resolves _ _)) fun _ _ =>
    ite_ne_error pure_ne_error pure_ne_error

theorem foldWhenAllImmediates_ne_diverges
    {func : Program → (Nat → Value) → Except Exception Imm}
    (computes : func p (p.insts inst).arg ≠ .error .diverges) :
    foldWhenAllImmediates p inst func ≠ .error .diverges :=
  bind_ne_error (allM_ne_error fun _ member => isImmediate_ne_diverges
      (wf.acyclic.resolve_ok wf.closed (wf.closed inst _ member))) fun _ _ =>
    ite_ne_error pure_ne_error (bind_ne_error computes fun _ _ => pure_ne_error)

theorem foldBinary32_ne_diverges {fn : BitVec 32 → BitVec 32 → Imm} :
    foldBinary32 p inst fn ≠ .error .diverges :=
  map_ne_error (foldWhenAllImmediates_ne_diverges wf
    (bind_ne_error (u32_ne_diverges (wf.arg_resolves _ _)) fun _ _ =>
      bind_ne_error (u32_ne_diverges (wf.arg_resolves _ _)) fun _ _ => pure_ne_error))

theorem foldBitField_ne_diverges
    {fn : BitVec 32 → BitVec 32 → BitVec 32 → Except Exception (BitVec 32)}
    (computes : ∀ base shift count, fn base shift count ≠ .error .diverges) :
    foldBitField p inst fn ≠ .error .diverges :=
  map_ne_error (foldWhenAllImmediates_ne_diverges wf
    (bind_ne_error (u32_ne_diverges (wf.arg_resolves _ _)) fun _ _ =>
      bind_ne_error (u32_ne_diverges (wf.arg_resolves _ _)) fun _ _ =>
        bind_ne_error (u32_ne_diverges (wf.arg_resolves _ _)) fun _ _ =>
          bind_ne_error (computes _ _ _) fun _ _ => pure_ne_error))

theorem foldXmadMultiply_ne_diverges : foldXmadMultiply p block inst ≠ .error .diverges := by
  unfold foldXmadMultiply
  refine bind_ne_error (isImmediate_ne_diverges (wf.arg_resolves _ _)) fun _ _ =>
    ite_ne_error pure_ne_error ?_
  refine bind_ne_error (isImmediate_ne_diverges (wf.arg_resolves _ _)) fun _ _ =>
    ite_ne_error pure_ne_error ?_
  refine bind_ne_error (instRecursive_ne_diverges (wf.arg_resolves _ _)) fun _ _ =>
    ite_ne_error pure_ne_error ?_
  refine bind_ne_error (isImmediate_ne_diverges (wf.arg_resolves _ _)) fun _ _ =>
    ite_ne_error pure_ne_error ?_
  refine bind_ne_error (instRecursive_ne_diverges (wf.arg_resolves _ _)) fun _ _ =>
    bind_ne_error (instRecursive_ne_diverges (wf.arg_resolves _ _)) fun _ _ =>
      ite_ne_error pure_ne_error ?_
  refine bind_ne_error (resolve_ne_diverges (wf.arg_resolves _ _)) fun _ _ =>
    bind_ne_error (resolve_ne_diverges (wf.arg_resolves _ _)) fun _ _ =>
      ite_ne_error pure_ne_error ?_
  refine bind_ne_error (isImmediate_ne_diverges (wf.arg_resolves _ _)) fun _ _ =>
    ite_ne_error pure_ne_error ?_
  refine bind_ne_error (isImmediate_ne_diverges (wf.arg_resolves _ _)) fun _ _ =>
    ite_ne_error pure_ne_error ?_
  refine bind_ne_error (instRecursive_ne_diverges (wf.arg_resolves _ _)) fun _ _ =>
    bind_ne_error (instRecursive_ne_diverges (wf.arg_resolves _ _)) fun _ _ =>
      ite_ne_error pure_ne_error (ite_ne_error pure_ne_error
        (ite_ne_error pure_ne_error (ite_ne_error pure_ne_error ?_)))
  exact bind_ne_error (resolve_ne_diverges (wf.arg_resolves _ _)) fun _ _ =>
    bind_ne_error (resolve_ne_diverges (wf.arg_resolves _ _)) fun _ _ =>
      ite_ne_error pure_ne_error pure_ne_error

theorem foldCommutative_ne_diverges {T : Type} {type : ArgType T} {immFn : T → T → T}
    (reads : ∀ {value : Value}, (∃ result, p.resolve value = .ok result) →
      type.arg p value ≠ .error .diverges) :
    foldCommutative type p inst immFn ≠ .error .diverges := by
  unfold foldCommutative
  refine bind_ne_error (isImmediate_ne_diverges (wf.arg_resolves _ _)) fun _ _ =>
    bind_ne_error (isImmediate_ne_diverges (wf.arg_resolves _ _)) fun _ _ =>
      ite_ne_error (bind_ne_error (reads (wf.arg_resolves _ _)) fun _ _ =>
        bind_ne_error (reads (wf.arg_resolves _ _)) fun _ _ => pure_ne_error)
      (ite_ne_error ?_ (ite_ne_error ?_ pure_ne_error)) <;>
  refine bind_ne_error (instRecursive_ne_diverges (wf.arg_resolves _ _)) fun _ _ =>
    ite_ne_error (bind_ne_error (isImmediate_ne_diverges (wf.arg_resolves _ _)) fun _ _ => ?_)
      (bind_ne_error pure_ne_error fun _ _ => ?_) <;>
  exact ite_ne_error (bind_ne_error (reads (wf.arg_resolves _ _)) fun _ _ =>
    bind_ne_error (reads (wf.arg_resolves _ _)) fun _ _ => pure_ne_error) pure_ne_error

/-- After `FoldCommutative`, `FoldAdd` reads the program it returned, which is well formed
again. -/
theorem foldAdd_ne_diverges {T : Type} [Add T] [OfNat T 0] [DecidableEq T] {isU32 : Bool}
    (F : CommutativeOp T) (add : ∀ a b, F.immFn a b = a + b) (opcode : (p.insts inst).op = F.op)
    (reads : ∀ {q : Program} {value : Value}, (∃ result, q.resolve value = .ok result) →
      F.type.arg q value ≠ .error .diverges) :
    foldAdd F.type isU32 p block inst ≠ .error .diverges := by
  have immFn_eq : F.immFn = (· + ·) := funext fun a => funext (add a)
  unfold foldAdd
  refine ite_ne_error pure_ne_error
    (bind_ne_error (foldCommutative_ne_diverges wf reads) fun result folded => ?_)
  obtain ⟨notFolded, p₁⟩ := result
  have step := foldCommutative_step folded
  rw [← immFn_eq] at step
  have wf₁ := step.wellFormed opcode wf
  refine ite_ne_error pure_ne_error
    (bind_ne_error (isImmediate_ne_diverges (wf₁.arg_resolves _ _)) fun _ _ =>
      ite_ne_error (bind_ne_error (map_ne_error (reads (wf₁.arg_resolves _ _))) fun _ _ => ?_)
        (bind_ne_error pure_ne_error fun _ _ => ?_)) <;>
  exact ite_ne_error pure_ne_error
    (ite_ne_error (map_ne_error (foldXmadMultiply_ne_diverges wf₁)) pure_ne_error)

/-- The operands `FoldISub32` reads after canonicalizing are operands of the add it found. -/
theorem foldISub32_ne_diverges : foldISub32 p inst ≠ .error .diverges := by
  unfold foldISub32
  refine bind_ne_error (foldWhenAllImmediates_ne_diverges wf
    (bind_ne_error (u32_ne_diverges (wf.arg_resolves _ _)) fun _ _ =>
      bind_ne_error (u32_ne_diverges (wf.arg_resolves _ _)) fun _ _ => pure_ne_error))
    fun result computed => ?_
  rcases foldWhenAllImmediates_cases _ computed with rfl | ⟨imm, -, rfl⟩
  swap
  · exact nofun
  refine ite_ne_error pure_ne_error ?_
  refine bind_ne_error (isImmediate_ne_diverges (wf.arg_resolves _ _)) fun _ _ =>
    ite_ne_error pure_ne_error ?_
  refine bind_ne_error (isImmediate_ne_diverges (wf.arg_resolves _ _)) fun _ _ =>
    ite_ne_error pure_ne_error ?_
  refine bind_ne_error (instRecursive_ne_diverges (wf.arg_resolves _ _)) fun opA _ =>
    bind_ne_error (instRecursive_ne_diverges (wf.arg_resolves _ _)) fun opB _ =>
      ite_ne_error pure_ne_error ?_
  obtain ⟨a, b, canonical⟩ : ∃ a b,
      (if (p.insts opB).op = .iAdd32 then (opB, opA) else (opA, opB)) = (a, b) := ⟨_, _, rfl⟩
  rw [canonical]
  refine ite_ne_error pure_ne_error (ite_ne_error pure_ne_error ?_)
  refine bind_ne_error (isImmediate_ne_diverges (wf.arg_resolves _ _)) fun _ _ =>
    ite_ne_error ?_ ?_ <;>
  refine bind_ne_error pure_ne_error fun pair chosen => ?_ <;>
  obtain rfl := pure_eq_ok.mp chosen <;>
  exact bind_ne_error (isImmediate_ne_diverges (wf.arg_resolves _ _)) fun _ _ =>
    ite_ne_error pure_ne_error
      (bind_ne_error (instRecursive_ne_diverges (wf.arg_resolves _ _)) fun _ _ =>
        ite_ne_error pure_ne_error pure_ne_error)

theorem foldSelect_ne_diverges : foldSelect p inst ≠ .error .diverges :=
  bind_ne_error (isImmediate_ne_diverges (wf.arg_resolves _ _)) fun _ _ =>
    ite_ne_error (bind_ne_error (u1_ne_diverges (wf.arg_resolves _ _)) fun _ _ =>
      pure_ne_error) pure_ne_error

/-- The multiplicand `FoldFPMul32` resolves is a value of the program, so it resolves again. -/
theorem foldFPMul32_ne_diverges : foldFPMul32 p inst ≠ .error .diverges := by
  unfold foldFPMul32
  refine ite_ne_error pure_ne_error ?_
  refine bind_ne_error (isImmediate_ne_diverges (wf.arg_resolves _ _)) fun _ _ =>
    ite_ne_error pure_ne_error ?_
  refine bind_ne_error (isImmediate_ne_diverges (wf.arg_resolves _ _)) fun _ _ =>
    ite_ne_error pure_ne_error ?_
  refine bind_ne_error (instRecursive_ne_diverges (wf.arg_resolves _ _)) fun _ _ =>
    bind_ne_error (instRecursive_ne_diverges (wf.arg_resolves _ _)) fun _ _ =>
      ite_ne_error pure_ne_error ?_
  refine bind_ne_error (resolve_ne_diverges (wf.arg_resolves _ _)) fun source resolved => ?_
  have source_resolves := wf.acyclic.resolve_ok wf.closed
    (wf.closed.resolveWith_refersBelow (wf.closed.arg _ _) resolved)
  refine bind_ne_error (isImmediate_ne_diverges (wf.arg_resolves _ _)) fun _ _ =>
    ite_ne_error pure_ne_error ?_
  refine bind_ne_error (isImmediate_ne_diverges source_resolves) fun _ _ =>
    ite_ne_error pure_ne_error ?_
  refine bind_ne_error (instRecursive_ne_diverges (wf.arg_resolves _ _)) fun _ _ =>
    bind_ne_error (instRecursive_ne_diverges source_resolves) fun _ _ =>
      ite_ne_error pure_ne_error ?_
  exact bind_ne_error (attr_ne_diverges (wf.arg_resolves _ _)) fun _ _ =>
    bind_ne_error (attr_ne_diverges (wf.arg_resolves _ _)) fun _ _ =>
      ite_ne_error pure_ne_error pure_ne_error

theorem foldLogicalAnd_ne_diverges (opcode : (p.insts inst).op = .logicalAnd) :
    foldLogicalAnd p inst ≠ .error .diverges := by
  unfold foldLogicalAnd
  refine bind_ne_error (foldCommutative_ne_diverges wf u1_ne_diverges)
    fun result folded => ?_
  obtain ⟨notFolded, p₁⟩ := result
  have step : CommutativeStep CommutativeOp.logicalAnd.type CommutativeOp.logicalAnd.immFn p inst
      (notFolded, p₁) := foldCommutative_step folded
  have wf₁ := step.wellFormed opcode wf
  exact ite_ne_error pure_ne_error
    (bind_ne_error (isImmediate_ne_diverges (wf₁.arg_resolves _ _)) fun _ _ =>
      ite_ne_error (bind_ne_error (u1_ne_diverges (wf₁.arg_resolves _ _)) fun _ _ =>
        ite_ne_error pure_ne_error pure_ne_error) pure_ne_error)

theorem foldLogicalOr_ne_diverges (opcode : (p.insts inst).op = .logicalOr) :
    foldLogicalOr p inst ≠ .error .diverges := by
  unfold foldLogicalOr
  refine bind_ne_error (foldCommutative_ne_diverges wf u1_ne_diverges)
    fun result folded => ?_
  obtain ⟨notFolded, p₁⟩ := result
  have step : CommutativeStep CommutativeOp.logicalOr.type CommutativeOp.logicalOr.immFn p inst
      (notFolded, p₁) := foldCommutative_step folded
  have wf₁ := step.wellFormed opcode wf
  exact ite_ne_error pure_ne_error
    (bind_ne_error (isImmediate_ne_diverges (wf₁.arg_resolves _ _)) fun _ _ =>
      ite_ne_error (bind_ne_error (u1_ne_diverges (wf₁.arg_resolves _ _)) fun _ _ =>
        ite_ne_error pure_ne_error pure_ne_error) pure_ne_error)

theorem foldLogicalNot_ne_diverges : foldLogicalNot p inst ≠ .error .diverges :=
  bind_ne_error (isImmediate_ne_diverges (wf.arg_resolves _ _)) fun _ _ =>
    ite_ne_error (bind_ne_error (u1_ne_diverges (wf.arg_resolves _ _)) fun _ _ =>
      pure_ne_error)
      (bind_ne_error (instRecursive_ne_diverges (wf.arg_resolves _ _)) fun _ _ =>
        ite_ne_error pure_ne_error pure_ne_error)

theorem foldBitCast_ne_diverges {op reverse : Opcode}
    {bitCast : Program → Value → Except Exception Imm}
    (cast : bitCast p ((p.insts inst).arg 0) ≠ .error .diverges) :
    foldBitCast op bitCast p inst reverse ≠ .error .diverges :=
  bind_ne_error (isImmediate_ne_diverges (wf.arg_resolves _ _)) fun _ _ =>
    ite_ne_error (bind_ne_error cast fun _ _ => pure_ne_error)
      (bind_ne_error (instRecursive_ne_diverges (wf.arg_resolves _ _)) fun _ _ =>
        ite_ne_error pure_ne_error (ite_ne_error pure_ne_error pure_ne_error))

theorem foldInverseFunc_ne_diverges {reverse : Opcode} :
    foldInverseFunc p inst reverse ≠ .error .diverges :=
  bind_ne_error (isImmediate_ne_diverges (wf.arg_resolves _ _)) fun _ _ =>
    ite_ne_error pure_ne_error
      (bind_ne_error (instRecursive_ne_diverges (wf.arg_resolves _ _)) fun _ _ =>
        ite_ne_error pure_ne_error pure_ne_error)

theorem foldBranchConditional_ne_diverges : foldBranchConditional p inst ≠ .error .diverges :=
  bind_ne_error (isImmediate_ne_diverges (wf.arg_resolves _ _)) fun _ _ =>
    ite_ne_error pure_ne_error
      (bind_ne_error (instRecursive_ne_diverges (wf.arg_resolves _ _)) fun _ _ =>
        ite_ne_error pure_ne_error pure_ne_error)

/-- `FoldCompositeExtract` reads its operands, and its walk ends within the arena's bound. -/
theorem foldCompositeExtract_ne_diverges {type : CompositeType} :
    foldCompositeExtract p inst (.compositeConstruct type) (.compositeInsert type) ≠
      .error .diverges :=
  bind_ne_error (isImmediate_ne_diverges (wf.arg_resolves _ _)) fun _ _ =>
    ite_ne_error pure_ne_error
      (bind_ne_error (isImmediate_ne_diverges (wf.arg_resolves _ _)) fun _ _ =>
        ite_ne_error pure_ne_error
          (bind_ne_error (u32_ne_diverges (wf.arg_resolves _ _)) fun _ _ =>
            bind_ne_error (implWith_count_ne_diverges wf.closed wf.acyclic (wf.closed.arg _ _))
              fun found _ => by cases found <;> exact pure_ne_error))

end Folds

/-! ## The pass -/

variable {p : Program} {Γ : Nat → Ty} {D : Dominance}

/-- No fold `ConstantPropagation` dispatches to diverges on a well-formed program. -/
theorem constantPropagation_ne_diverges (wf : p.WellFormed Γ D) {block inst : Nat} :
    constantPropagation p block inst ≠ .error .diverges := by
  unfold constantPropagation
  cases opcode : (p.insts inst).op
  case getRegister => exact foldGetRegister_ne_diverges wf
  case getPred => exact foldGetPred_ne_diverges wf
  case iAdd32 => exact foldAdd_ne_diverges wf .iAdd32 (fun _ _ => rfl) opcode u32_ne_diverges
  case iSub32 => exact foldISub32_ne_diverges wf
  case bitCastF32U32 =>
    exact foldBitCast_ne_diverges wf (map_ne_error (u32_ne_diverges (wf.arg_resolves _ _)))
  case bitCastU32F32 =>
    exact foldBitCast_ne_diverges wf (map_ne_error (f32_ne_diverges (wf.arg_resolves _ _)))
  case iAdd64 => exact foldAdd_ne_diverges wf .iAdd64 (fun _ _ => rfl) opcode u64_ne_diverges
  case packHalf2x16 | unpackHalf2x16 => exact foldInverseFunc_ne_diverges wf
  case select => exact foldSelect_ne_diverges wf
  case fpMul32 => exact foldFPMul32_ne_diverges wf
  case logicalAnd => exact foldLogicalAnd_ne_diverges wf opcode
  case logicalOr => exact foldLogicalOr_ne_diverges wf opcode
  case logicalNot => exact foldLogicalNot_ne_diverges wf
  case sLessThan | uLessThan | sLessThanEqual | uLessThanEqual | sGreaterThan | uGreaterThan
      | sGreaterThanEqual | uGreaterThanEqual | iEqual | iNotEqual =>
    exact foldBinary32_ne_diverges wf
  case bitFieldUExtract => exact foldBitField_ne_diverges wf bitFieldUExtractImm_ne_diverges
  case bitFieldSExtract => exact foldBitField_ne_diverges wf bitFieldSExtractImm_ne_diverges
  case branchConditional => exact foldBranchConditional_ne_diverges wf
  case compositeExtract => exact foldCompositeExtract_ne_diverges wf
  all_goals exact pure_ne_error

/-- Take a well-formed program: typed, closed and in SSA form under a dominance, with extract
indices immediates below the lane count, and blocks of allocated instructions.
`ConstantPropagationPass` does not diverge on it: every walk through `Identity` chains and
through inserts that it makes ends, so it returns, or throws one of the `LogicError`s of the
C++. -/
theorem constantPropagationPass_ne_diverges (wf : p.WellFormed Γ D) :
    constantPropagationPass p ≠ .error .diverges := by
  have visit : ∀ q : Program, (∃ Γ D, q.WellFormed Γ D) → ∀ block r,
      (∃ Γ D, r.WellFormed Γ D) ∧ q.count ≤ r.count → ∀ inst ∈ q.blocks block,
        (∀ r', constantPropagation r block inst = .ok r' →
          (∃ Γ D, r'.WellFormed Γ D) ∧ q.count ≤ r'.count) ∧
        constantPropagation r block inst ≠ .error .diverges := by
    rintro q ⟨Γq, Dq, wfq⟩ block r ⟨⟨Γr, Dr, wfr⟩, grown⟩ inst member
    refine ⟨fun r' folded => ?_, constantPropagation_ne_diverges wfr⟩
    obtain ⟨larger, Γ', D', wf', -⟩ := constantPropagation_wellFormed wfr
      (Nat.lt_of_lt_of_le (wfq.allocated block inst member) grown) folded
    exact ⟨⟨Γ', D', wf'⟩, grown.trans larger⟩
  unfold constantPropagationPass
  refine @foldlM_ne_error _ _ _ _ (fun q => ∃ Γ D, q.WellFormed Γ D) _ _
    (fun q wfq block _ q' swept => ?_) (fun q wfq block _ => ?_) p ⟨Γ, D, wf⟩
  · exact (foldlM_invariant (fun r inv inst member => (visit q wfq block r inv inst member).1) q
      ⟨wfq, le_rfl⟩ q' swept).1
  · exact foldlM_ne_error (fun r inv inst member => (visit q wfq block r inv inst member).1)
      (fun r inv inst member => (visit q wfq block r inv inst member).2) q ⟨wfq, le_rfl⟩

/-- The pass does not diverge on the well-formed `extractLane 1`, where it follows the extract
to the construct. -/
theorem extractLane_pass_ne_diverges :
    (extractLane 1).WellFormed extractLaneTypes .straightLine ∧
      constantPropagationPass (extractLane 1) ≠ .error .diverges :=
  have wf : (extractLane 1).WellFormed extractLaneTypes .straightLine :=
    ⟨extractLane_wellTyped 1, extractLane_closed 1, extractLane_dominated 1,
      extractLane_one_extractsInRange, extractLane_allocated 1⟩
  ⟨wf, constantPropagationPass_ne_diverges wf⟩

end Shader.Optimization

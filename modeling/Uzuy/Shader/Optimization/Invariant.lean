import Uzuy.Shader.Optimization.Outcomes
import Uzuy.Shader.Optimization.Commutative
import Uzuy.Shader.IR.WellFormed

/-!
# The pass keeps programs well formed

Each fold installs values of the right type that are available where they are used: immediates
of the instruction's result type, operands of the visited instruction, or operands of
instructions its operands resolve to, which dominate it. So every fold keeps a program well
formed, the XMAD fold under types and a dominance extended by the multiply it emits.
-/

namespace Shader.Optimization

open Shader.IR

variable {p p' : Program} {Γ : Nat → Ty} {D : Dominance} {block inst : Nat}

/-! ## Folds that replace the visited instruction -/

section Replace

variable (wf : p.WellFormed Γ D)
include wf

theorem foldGetRegister_wellFormed (opcode : (p.insts inst).op = .getRegister)
    (folded : foldGetRegister p inst = .ok p') : p.WellFormedAfter Γ D p' := by
  rcases foldGetRegister_cases p' folded with rfl | rfl
  · exact .of_wellFormed wf rfl
  · exact .of_wellFormed (wf.replaceUsesWith_imm (wf.typed.resultType opcode rfl).symm) rfl

theorem foldGetPred_wellFormed (opcode : (p.insts inst).op = .getPred)
    (folded : foldGetPred p inst = .ok p') : p.WellFormedAfter Γ D p' := by
  rcases foldGetPred_cases p' folded with rfl | rfl
  · exact .of_wellFormed wf rfl
  · exact .of_wellFormed (wf.replaceUsesWith_imm (wf.typed.resultType opcode rfl).symm) rfl

/-- A fold through `FoldWhenAllImmediates` installs an immediate of the instruction's type. -/
theorem foldWhenAllImmediates_wellFormed {func : Program → (Nat → Value) → Except Exception Imm}
    (typed : ∀ imm, func p (p.insts inst).arg = .ok imm → imm.type = Γ inst) {result : Bool × Program}
    (folded : foldWhenAllImmediates p inst func = .ok result) : p.WellFormedAfter Γ D result.2 := by
  rcases foldWhenAllImmediates_cases _ folded with rfl | ⟨imm, computed, rfl⟩
  · exact .of_wellFormed wf rfl
  · exact .of_wellFormed (wf.replaceUsesWith_imm (typed imm computed)) rfl

theorem foldBinary32_wellFormed {fn : BitVec 32 → BitVec 32 → Imm}
    (typed : ∀ a b, (fn a b).type = Γ inst) (folded : foldBinary32 p inst fn = .ok p') :
    p.WellFormedAfter Γ D p' := by
  obtain ⟨result, computed, rfl⟩ := map_eq_ok.mp folded
  refine foldWhenAllImmediates_wellFormed wf (fun imm evaluated => ?_) computed
  simp only [bind_eq_ok, pure_eq_ok] at evaluated
  obtain ⟨a, -, b, -, rfl⟩ := evaluated
  exact typed a b

theorem foldBitField_wellFormed {fn : BitVec 32 → BitVec 32 → BitVec 32 → Except Exception (BitVec 32)}
    (result : Γ inst = .u32) (folded : foldBitField p inst fn = .ok p') :
    p.WellFormedAfter Γ D p' := by
  obtain ⟨_, computed, rfl⟩ := map_eq_ok.mp folded
  refine foldWhenAllImmediates_wellFormed wf (fun imm evaluated => ?_) computed
  simp only [bind_eq_ok, pure_eq_ok] at evaluated
  obtain ⟨_, -, _, -, _, -, _, -, rfl⟩ := evaluated
  exact result.symm

theorem foldISub32_wellFormed (opcode : (p.insts inst).op = .iSub32)
    (folded : foldISub32 p inst = .ok p') : p.WellFormedAfter Γ D p' := by
  have result : Γ inst = .u32 := wf.typed.resultType opcode rfl
  rcases foldISub32_cases p' folded with
    rfl | ⟨x, rfl⟩ | ⟨add, resolves, isAdd, index, below, rfl⟩
  · exact .of_wellFormed wf rfl
  · exact .of_wellFormed (wf.replaceUsesWith_imm result.symm) rfl
  have dominates : D.dominates add inst := by
    rcases resolves with resolves | resolves <;>
      exact wf.dominated.resolve_arg (by simp [opcode]) resolves
  refine .of_wellFormed (wf.replaceUsesWith_arg (.inr dominates) isAdd rfl ?_) rfl
  rw [result]
  match index, below with
  | 0, _ | 1, _ => rfl

theorem foldSelect_wellFormed {type : Ty} (opcode : (p.insts inst).op = .select type)
    (folded : foldSelect p inst = .ok p') : p.WellFormedAfter Γ D p' := by
  have result := (wf.typed.resultType opcode rfl).symm
  rcases foldSelect_cases p' folded with rfl | rfl | rfl
  · exact .of_wellFormed wf rfl
  · exact .of_wellFormed (wf.replaceUsesWith_arg (.inl rfl) opcode rfl result) rfl
  · exact .of_wellFormed (wf.replaceUsesWith_arg (.inl rfl) opcode rfl result) rfl

theorem foldFPMul32_wellFormed (opcode : (p.insts inst).op = .fpMul32)
    (folded : foldFPMul32 p inst = .ok p') : p.WellFormedAfter Γ D p' := by
  rcases foldFPMul32_cases p' folded with rfl | ⟨lhsOp, resolves, isMul, rfl⟩
  · exact .of_wellFormed wf rfl
  · exact .of_wellFormed (wf.replaceUsesWith_arg
      (.inr (wf.dominated.resolve_arg (by simp [opcode]) resolves)) isMul rfl
      (wf.typed.resultType opcode rfl).symm) rfl

theorem foldLogicalNot_wellFormed (opcode : (p.insts inst).op = .logicalNot)
    (folded : foldLogicalNot p inst = .ok p') : p.WellFormedAfter Γ D p' := by
  have result := (wf.typed.resultType opcode rfl).symm
  rcases foldLogicalNot_cases p' folded with rfl | ⟨b, rfl⟩ | ⟨arg, resolves, isNot, rfl⟩
  · exact .of_wellFormed wf rfl
  · exact .of_wellFormed (wf.replaceUsesWith_imm result) rfl
  · exact .of_wellFormed (wf.replaceUsesWith_arg
      (.inr (wf.dominated.resolve_arg (by simp [opcode]) resolves)) isNot rfl result) rfl

/-- `FoldInverseFunc` installs the argument of the inverse operation, which has the result's
type. -/
theorem foldInverseFunc_wellFormed {op reverse : Opcode} (opcode : (p.insts inst).op = op)
    (plain : op.isPlain) (reversePlain : reverse.isPlain)
    (inverse : reverse.argTypes.getD 0 .void = op.resultType)
    (folded : foldInverseFunc p inst reverse = .ok p') : p.WellFormedAfter Γ D p' := by
  rcases foldInverseFunc_cases p' folded with rfl | ⟨arg, resolves, isReverse, rfl⟩
  · exact .of_wellFormed wf rfl
  · exact .of_wellFormed (wf.replaceUsesWith_arg
      (.inr (wf.dominated.resolve_arg (opcode ▸ Opcode.ne_phi_of_isPlain plain) resolves))
      isReverse reversePlain (inverse.trans (wf.typed.resultType opcode plain).symm)) rfl

/-- `FoldBitCast` installs an immediate of the cast's type or the argument of the reverse cast,
or turns the cast of a constant-buffer read into a typed read of the same binding and offset. -/
theorem foldBitCast_wellFormed {op reverse : Opcode}
    {bitCast : Program → Value → Except Exception Imm} (opcode : (p.insts inst).op = op)
    (plain : op.isPlain) (reversePlain : reverse.isPlain)
    (casts : ∀ value imm, bitCast p value = .ok imm → imm.type = op.resultType)
    (inverse : reverse.argTypes.getD 0 .void = op.resultType)
    (folded : foldBitCast op bitCast p inst reverse = .ok p') : p.WellFormedAfter Γ D p' := by
  have result := wf.typed.resultType opcode plain
  rcases foldBitCast_cases p' folded with
    rfl | ⟨imm, cast, rfl⟩ | ⟨arg, resolves, ⟨isReverse, rfl⟩ | ⟨rfl, isCbuf, rfl⟩⟩
  · exact .of_wellFormed wf rfl
  · exact .of_wellFormed (wf.replaceUsesWith_imm ((casts _ _ cast).trans result.symm)) rfl
  · exact .of_wellFormed (wf.replaceUsesWith_arg
      (.inr (wf.dominated.resolve_arg (opcode ▸ Opcode.ne_phi_of_isPlain plain) resolves))
      isReverse reversePlain (inverse.trans result.symm)) rfl
  have dominates := wf.dominated.resolve_arg (by simp [opcode]) resolves
  have ne : arg ≠ inst := fun same => D.irrefl _ (same ▸ dominates)
  obtain ⟨value, single⟩ := List.length_eq_one.mp (wf.typed.args_length opcode plain)
  simp only [Program.setArg_insts_of_ne _ _ _ ne, Program.replaceOpcode_insts_of_ne _ _ ne]
  rw [p.replaceOpcode_setArg_setArg_of_single single]
  have available : ∀ index, ((p.insts arg).arg index).AvailableAt D inst := fun index =>
    (wf.dominated.arg (show ∀ type, (p.insts arg).op ≠ .phi type by simp [isCbuf]) index).of_dominates
      dominates
  refine .of_wellFormed (wf.setInst_of_typing rfl (by simp) result ?_ ?_ ?_) rfl
  · simp [wf.typed.typeIn_arg isCbuf rfl, Opcode.argTypes]
  · simp [available]
  · simp [wf.closed.arg]

theorem foldBranchConditional_wellFormed (opcode : (p.insts inst).op = .branchConditional)
    (folded : foldBranchConditional p inst = .ok p') : p.WellFormedAfter Γ D p' := by
  rcases foldBranchConditional_cases p' folded with rfl | ⟨cond, resolves, isNot, rfl⟩
  · exact .of_wellFormed wf rfl
  have notPhi : ∀ type, (p.insts inst).op ≠ .phi type := by simp [opcode]
  obtain ⟨_, _, _, triple⟩ := List.length_eq_three.mp (wf.typed.args_length opcode rfl)
  rw [p.setArg_setArg_setArg_of_triple triple]
  have available := (wf.dominated.arg (by simp [isNot]) 0).of_dominates
    (wf.dominated.resolve_arg notPhi resolves)
  refine .of_wellFormed (wf.setInst_of_typing (by simp [opcode, Opcode.isPlain]) (by simp [opcode])
    (by simpa [opcode] using wf.typed.resultType opcode rfl) ?_ ?_ ?_) rfl
  · simp [opcode, wf.typed.typeIn_arg isNot rfl, wf.typed.typeIn_arg opcode rfl, Opcode.argTypes]
  · simp [available, wf.dominated.arg notPhi]
  · simp [wf.closed.arg]

end Replace

/-! ## Extracts -/

/-- What `FoldCompositeExtractImpl` finds for a lane below the lane count, walking from a value
available at `user`, is a value of the lane's type available at `user`: a construct's argument,
an insert's object, or what the walk finds from the insert's composite. -/
theorem foldCompositeExtractImplWith_installs (wf : p.WellFormed Γ D) {type : CompositeType}
    {i : BitVec 32} (lane : i.toNat < type.lanes) {user fuel : Nat} {value v : Value}
    (available : value.AvailableAt D user) (below : value.RefersBelow p.count)
    (found : foldCompositeExtractImplWith p (.compositeInsert type) (.compositeConstruct type) i
      fuel value = .ok (some v)) :
    v.typeIn Γ = type.laneType ∧ v.AvailableAt D user ∧ v.RefersBelow p.count := by
  induction fuel using Nat.strong_induction_on generalizing value with
  | _ fuel ih =>
    obtain ⟨d, resolves, walked⟩ := foldCompositeExtractImplWith_eq_some found
    have dominates := wf.resolve_available available resolves
    rcases walked with ⟨isConstruct, rfl⟩ | ⟨isInsert, rfl | ⟨fuel', rfl, walked⟩⟩
    · refine ⟨(wf.typed.typeIn_arg isConstruct rfl _).trans ?_,
        (wf.dominated.arg (by simp [isConstruct]) _).of_dominates dominates, wf.closed.arg _ _⟩
      simp [Opcode.argTypes, List.getD_eq_getElem?_getD, lane]
    · exact ⟨wf.typed.typeIn_arg isInsert rfl _,
        (wf.dominated.arg (by simp [isInsert]) _).of_dominates dominates, wf.closed.arg _ _⟩
    · exact ih fuel' (Nat.lt_succ_self _)
        ((wf.dominated.arg (by simp [isInsert]) 0).of_dominates dominates) (wf.closed.arg _ 0)
        walked

theorem foldCompositeExtract_wellFormed (wf : p.WellFormed Γ D) {type : CompositeType}
    (opcode : (p.insts inst).op = .compositeExtract type)
    (folded : foldCompositeExtract p inst (.compositeConstruct type) (.compositeInsert type) =
      .ok p') : p.WellFormedAfter Γ D p' := by
  rcases foldCompositeExtract_cases p' folded with rfl | ⟨i, v, index, walked, rfl⟩
  · exact .of_wellFormed wf rfl
  obtain ⟨j, literal, lane⟩ := wf.extractsInRange inst type opcode
  rw [literal, Program.u32_imm] at index
  cases index
  obtain ⟨typed, available, below⟩ := foldCompositeExtractImplWith_installs wf lane
    (wf.dominated.arg (by simp [opcode]) 0) (wf.closed.arg inst 0) walked
  exact .of_wellFormed
    (wf.replaceUsesWith (typed.trans (wf.typed.resultType opcode rfl).symm) available below) rfl

/-! ## Commutative folds -/

open CommutativeOp

theorem CommutativeOp.isPlain {T : Type} (F : CommutativeOp T) : F.op.isPlain := by
  cases opcode : F.op with
  | identity => exact absurd opcode F.ne_identity
  | phi type => exact absurd opcode (F.ne_phi type)
  | _ => rfl

theorem CommutativeOp.ne_compositeExtract {T : Type} (F : CommutativeOp T) (type : CompositeType) :
    F.op ≠ .compositeExtract type := fun extract => by
  have operands := F.argTypes_eq
  simp only [extract, Opcode.argTypes, List.cons.injEq, and_true] at operands
  exact Ty.noConfusion (operands.1.trans operands.2.symm)

/-- Every outcome of `FoldCommutative` keeps a program well formed: a merge installs the
producer's first operand, which dominates the producer and so the instruction. -/
theorem CommutativeStep.wellFormed {T : Type} {F : CommutativeOp T} {p₁ : Program}
    {notFolded : Bool} (step : CommutativeStep F.type F.immFn p inst (notFolded, p₁))
    (opcode : (p.insts inst).op = F.op) (wf : p.WellFormed Γ D) : p₁.WellFormed Γ D := by
  obtain ⟨result, pair, lhs_type, rhs_type⟩ := operands (wf.typed inst) opcode
  have notPhi : ∀ type, (p.insts inst).op ≠ .phi type := by simp [opcode, F.ne_phi]
  have keeps : ∀ {x y : Value}, x.typeIn Γ = F.ty → y.typeIn Γ = F.ty →
      x.AvailableAt D inst → y.AvailableAt D inst → x.RefersBelow p.count →
        y.RefersBelow p.count → (p.setInst inst { p.insts inst with args := [x, y] }).WellFormed Γ D :=
    fun x_type y_type x_available y_available x_below y_below =>
      wf.setInst_of_typing (by simp [opcode, F.isPlain]) (by simp [opcode, F.ne_compositeExtract])
        (by simp [opcode, result, F.resultType_eq])
        (by simp [opcode, F.argTypes_eq, x_type, y_type]) (by simp [x_available, y_available])
        (by simp [x_below, y_below])
  cases step with
  | folded => exact wf.replaceUsesWith_imm (by simp [F.value_type, result])
  | @merged _ _ producer _ _ sides _ other_resolves same_op =>
      have dominates : D.dominates producer inst := by
        rcases sides with ⟨-, rfl⟩ | ⟨-, rfl⟩ <;> exact wf.dominated.resolve_arg notPhi other_resolves
      rw [p.setArg_setArg_of_pair pair]
      exact keeps (operands (wf.typed _) (same_op.trans opcode)).2.2.1 (F.value_type _)
        ((wf.dominated.arg (by simp [same_op, notPhi]) 0).of_dominates dominates) trivial
        (wf.closed.arg _ 0) trivial
  | swapped =>
      rw [p.setArg_setArg_of_pair pair]
      exact keeps rhs_type lhs_type (wf.dominated.arg notPhi 1) (wf.dominated.arg notPhi 0)
        (wf.closed.arg _ 1) (wf.closed.arg _ 0)
  | kept => exact wf

/-! ## The XMAD fold -/

namespace XmadMatch

variable (m : XmadMatch p inst) (wf : p.WellFormed Γ D)
include wf

/-- The factors the XMAD fold multiplies are `u32` operands of the matched instructions, which
dominate the add. -/
theorem factors (notPhi : ∀ type, (p.insts inst).op ≠ .phi type) :
    m.factorA.typeIn Γ = .u32 ∧ m.factorB.typeIn Γ = .u32 ∧
      m.factorA.AvailableAt D inst ∧ m.factorB.AvailableAt D inst ∧
      m.factorA.RefersBelow p.count ∧ m.factorB.RefersBelow p.count := by
  have shl := wf.dominated.resolve_arg notPhi m.shl_resolves
  have lhsMul := D.trans (wf.dominated.resolve_arg (by simp [m.shl_op]) m.lhsMul_resolves) shl
  have lhsBfe :=
    D.trans (wf.dominated.resolve_arg (by simp [m.lhsMul_op]) m.lhsBfe_resolves) lhsMul
  exact ⟨wf.typed.typeIn_arg m.lhsBfe_op rfl 0, wf.typed.typeIn_arg m.lhsMul_op rfl 1,
    (wf.dominated.arg (by simp [m.lhsBfe_op]) 0).of_dominates lhsBfe,
    (wf.dominated.arg (by simp [m.lhsMul_op]) 1).of_dominates lhsMul,
    wf.closed.arg _ 0, wf.closed.arg _ 1⟩

/-- The program `FoldXmadMultiply` builds, with `IMul32(factor_a, factor_b)` emitted before the
add and the add an `Identity` of it, is well formed: the product is a `u32`, placed in the
dominance right before the add. -/
theorem wellFormed (opcode : (p.insts inst).op = .iAdd32) (inArena : inst < p.count) :
    ((p.prependNewInst block inst .iMul32 [m.factorA, m.factorB]).2.replaceUsesWith inst
      (.inst p.count)).WellFormed (Function.update Γ p.count .u32) (D.insertBefore p.count inst) := by
  obtain ⟨a_type, b_type, a_available, b_available, a_below, b_below⟩ :=
    m.factors wf (by simp [opcode])
  have emitted : (p.prependNewInst block inst .iMul32 [m.factorA, m.factorB]).2.WellFormed
      (Function.update Γ p.count Opcode.iMul32.resultType) (D.insertBefore p.count inst) :=
    wf.prependNewInst block rfl (by simp) (by simp [a_type, b_type, Opcode.argTypes])
      (by simp [a_available, b_available]) (by simp [a_below, b_below])
  have ne : inst ≠ p.count := Nat.ne_of_lt inArena
  refine emitted.replaceUsesWith ?_ (.inr (.inr ⟨rfl, ne, .inl rfl⟩)) (Nat.lt_succ_self _)
  simp [Value.typeIn, Function.update_noteq ne, wf.typed.resultType opcode rfl, Opcode.resultType]

theorem wellFormedAfter (opcode : (p.insts inst).op = .iAdd32) (inArena : inst < p.count) :
    p.WellFormedAfter Γ D ((p.prependNewInst block inst .iMul32 [m.factorA, m.factorB]).2.replaceUsesWith
      inst (.inst p.count)) :=
  ⟨Nat.le_succ _, _, _, m.wellFormed wf opcode inArena,
    fun _ below => Function.update_noteq (Nat.ne_of_lt below) _ _,
    fun _ ha _ hb => Dominance.insertBefore_dominates_iff (Nat.ne_of_lt ha) (Nat.ne_of_lt hb)⟩

end XmadMatch

/-- `FoldAdd` keeps a program well formed, under types and a dominance extended by the product
the XMAD fold emits. -/
theorem foldAdd_wellFormed {T : Type} [Add T] [OfNat T 0] [DecidableEq T] {isU32 : Bool}
    (F : CommutativeOp T) (add : ∀ a b, F.immFn a b = a + b)
    (xmad : isU32 = true → F.op = .iAdd32) (wf : p.WellFormed Γ D)
    (opcode : (p.insts inst).op = F.op) (inArena : inst < p.count)
    (folded : foldAdd F.type isU32 p block inst = .ok p') : p.WellFormedAfter Γ D p' := by
  have immFn_eq : F.immFn = (· + ·) := funext fun a => funext (add a)
  rcases foldAdd_cases folded with rfl | ⟨notFolded, p₁, step, rest⟩
  · exact .of_wellFormed wf rfl
  rw [← immFn_eq] at step
  have wf₁ := step.wellFormed opcode wf
  rcases rest with rfl | ⟨rfl, ⟨-, rfl⟩ | ⟨u32, matched, product⟩⟩
  · exact .of_wellFormed wf₁ step.count_eq
  · exact .of_wellFormed (wf₁.replaceUsesWith_arg (.inl rfl) (step.op_eq.trans opcode) F.isPlain
      (by simp [F.argTypes_eq, (operands (wf.typed inst) opcode).1])) step.count_eq
  cases matched
  · obtain rfl : p' = p₁ := foldXmadMultiply_declined _ product rfl
    exact .of_wellFormed wf₁ step.count_eq
  obtain ⟨m, rfl⟩ := foldXmadMultiply_eq_ok_true product
  exact (Program.WellFormedAfter.of_wellFormed wf₁ step.count_eq).trans fun _ _ wf₁ =>
    m.wellFormedAfter wf₁ (step.op_eq.trans (opcode.trans (xmad u32))) (step.count_eq ▸ inArena)

theorem foldLogicalAnd_wellFormed (wf : p.WellFormed Γ D) (opcode : (p.insts inst).op = .logicalAnd)
    (folded : foldLogicalAnd p inst = .ok p') : p.WellFormedAfter Γ D p' := by
  obtain ⟨notFolded, p₁, step, rest⟩ := foldLogicalAnd_cases folded
  replace step : CommutativeStep logicalAnd.type logicalAnd.immFn p inst (notFolded, p₁) := step
  have wf₁ := step.wellFormed opcode wf
  have result : Γ inst = .u1 := wf.typed.resultType opcode rfl
  rcases rest with rfl | ⟨rfl, b, -, rfl⟩
  · exact .of_wellFormed wf₁ step.count_eq
  cases b <;> simp only [Bool.false_eq_true, if_false, if_true]
  · exact .of_wellFormed (wf₁.replaceUsesWith_imm result.symm) step.count_eq
  · exact .of_wellFormed
      (wf₁.replaceUsesWith_arg (.inl rfl) (step.op_eq.trans opcode) rfl result.symm) step.count_eq

theorem foldLogicalOr_wellFormed (wf : p.WellFormed Γ D) (opcode : (p.insts inst).op = .logicalOr)
    (folded : foldLogicalOr p inst = .ok p') : p.WellFormedAfter Γ D p' := by
  obtain ⟨notFolded, p₁, step, rest⟩ := foldLogicalOr_cases folded
  replace step : CommutativeStep logicalOr.type logicalOr.immFn p inst (notFolded, p₁) := step
  have wf₁ := step.wellFormed opcode wf
  have result : Γ inst = .u1 := wf.typed.resultType opcode rfl
  rcases rest with rfl | ⟨rfl, b, -, rfl⟩
  · exact .of_wellFormed wf₁ step.count_eq
  cases b <;> simp only [Bool.false_eq_true, if_false, if_true]
  · exact .of_wellFormed
      (wf₁.replaceUsesWith_arg (.inl rfl) (step.op_eq.trans opcode) rfl result.symm) step.count_eq
  · exact .of_wellFormed (wf₁.replaceUsesWith_imm result.symm) step.count_eq

/-! ## The pass -/

/-- Every fold `ConstantPropagation` dispatches to keeps a program well formed. -/
theorem constantPropagation_wellFormed (wf : p.WellFormed Γ D) (inArena : inst < p.count)
    (folded : constantPropagation p block inst = .ok p') : p.WellFormedAfter Γ D p' := by
  have u32_cast : ∀ value imm, (Imm.f32 <$> p.u32 value) = .ok imm → imm.type = .f32 :=
    fun _ _ cast => by obtain ⟨_, -, rfl⟩ := map_eq_ok.mp cast; rfl
  have f32_cast : ∀ value imm, (Imm.u32 <$> p.f32 value) = .ok imm → imm.type = .u32 :=
    fun _ _ cast => by obtain ⟨_, -, rfl⟩ := map_eq_ok.mp cast; rfl
  have comparison : ∀ {fn : BitVec 32 → BitVec 32 → Imm}, foldBinary32 p inst fn = .ok p' →
      (∀ a b, (fn a b).type = .u1) → Γ inst = .u1 → p.WellFormedAfter Γ D p' :=
    fun folded typed result =>
      foldBinary32_wellFormed wf (fun a b => (typed a b).trans result.symm) folded
  rw [constantPropagation] at folded
  cases opcode : (p.insts inst).op <;> rw [opcode] at folded
  case getRegister => exact foldGetRegister_wellFormed wf opcode folded
  case getPred => exact foldGetPred_wellFormed wf opcode folded
  case iAdd32 =>
    exact foldAdd_wellFormed .iAdd32 (fun _ _ => rfl) (fun _ => rfl) wf opcode inArena folded
  case iSub32 => exact foldISub32_wellFormed wf opcode folded
  case bitCastF32U32 =>
    exact foldBitCast_wellFormed wf opcode rfl (by rfl) u32_cast (by rfl) folded
  case bitCastU32F32 =>
    exact foldBitCast_wellFormed wf opcode rfl (by rfl) f32_cast (by rfl) folded
  case iAdd64 =>
    exact foldAdd_wellFormed .iAdd64 (fun _ _ => rfl) (fun u32 => absurd u32 Bool.false_ne_true)
      wf opcode inArena folded
  case packHalf2x16 | unpackHalf2x16 =>
    exact foldInverseFunc_wellFormed wf opcode rfl (by rfl) (by rfl) folded
  case select => exact foldSelect_wellFormed wf opcode folded
  case fpMul32 => exact foldFPMul32_wellFormed wf opcode folded
  case logicalAnd => exact foldLogicalAnd_wellFormed wf opcode folded
  case logicalOr => exact foldLogicalOr_wellFormed wf opcode folded
  case logicalNot => exact foldLogicalNot_wellFormed wf opcode folded
  case sLessThan | uLessThan | sLessThanEqual | uLessThanEqual | sGreaterThan | uGreaterThan
      | sGreaterThanEqual | uGreaterThanEqual | iEqual | iNotEqual =>
    exact comparison folded (fun _ _ => rfl) (wf.typed.resultType opcode rfl)
  case bitFieldUExtract | bitFieldSExtract =>
    exact foldBitField_wellFormed wf (wf.typed.resultType opcode rfl) folded
  case branchConditional => exact foldBranchConditional_wellFormed wf opcode folded
  case compositeExtract => exact foldCompositeExtract_wellFormed wf opcode folded
  all_goals
    obtain rfl := pure_eq_ok.mp folded
    exact .of_wellFormed wf rfl

end Shader.Optimization

import Uzuy.Shader.Optimization.Invariant
import Uzuy.Shader.Optimization.Locality
import Uzuy.Shader.Optimization.BitField
import Uzuy.Shader.Optimization.Composite

/-!
# Each fold keeps the executions

In an execution of a well-formed program whose instructions have their types, the value a fold
installs for the visited instruction is the value the instruction had, and an operand it rewrites
gives the instruction its old value: the rewritten program has the same execution. The XMAD fold
adds one instruction, and the execution extends by its value. The cancellation of `FoldISub32`
after its operand swap, the extracts of a whole word or of no bits, and the floating-point folds
are sound only when they do not fire, which their lemmas take as a hypothesis; beside the
subtraction lemmas stand the programs on which `FoldISub32` goes wrong. Through the dispatcher,
the commutative folds keep the value of the instruction they visit, and a logical operation with
an immediate operand always becomes an `Identity`.
-/

namespace Shader.Optimization

open Shader.IR

variable {p p' : Program} {Γ : Nat → Ty} {D : Dominance} {block inst : Nat}

/-- `FoldGetRegister` installs `0` for `RZ`, the register that reads zero. -/
theorem foldGetRegister_keepsValuations (opcode : (p.insts inst).op = .getRegister) :
    ∀ p', foldGetRegister p inst = .ok p' → p.KeepsValuations Γ p' := by
  unfold foldGetRegister
  refine forall_ok_bind_with fun reg read => forall_ok_ite_with (fun isRZ => forall_ok_pure ?_)
    fun _ => forall_ok_pure (.refl Γ p)
  intro env ρ consistent _
  refine consistent.replaceUsesWith ?_
  rw [consistent.eq_evalOp opcode (by simp)]
  simp [evalOp, Program.denote_of_reg consistent read, isRZ]

/-- `FoldGetPred` installs `true` for `PT`, the predicate that reads true. -/
theorem foldGetPred_keepsValuations (opcode : (p.insts inst).op = .getPred) :
    ∀ p', foldGetPred p inst = .ok p' → p.KeepsValuations Γ p' := by
  unfold foldGetPred
  refine forall_ok_bind_with fun pred read => forall_ok_ite_with (fun isPT => forall_ok_pure ?_)
    fun _ => forall_ok_pure (.refl Γ p)
  intro env ρ consistent _
  refine consistent.replaceUsesWith ?_
  rw [consistent.eq_evalOp opcode (by simp)]
  simp [evalOp, Program.denote_of_pred consistent read, isPT]

/-- A fold through `FoldWhenAllImmediates` of a lambda of two `u32` that computes the opcode keeps
every execution. -/
theorem foldWhenAllImmediates_binary_keepsValuations {op : Opcode}
    {fn : BitVec 32 → BitVec 32 → Imm} (opcode : (p.insts inst).op = op)
    (notPhi : ∀ type, op ≠ .phi type)
    (computes : ∀ env arg, evalOp env op arg = .scalar (fn (arg 0).u32 (arg 1).u32)) :
    ∀ result, foldWhenAllImmediates p inst
        (fun p arg => do pure (fn (← p.u32 (arg 0)) (← p.u32 (arg 1)))) = .ok result →
      p.KeepsValuations Γ result.2 := by
  intro result folded
  rcases foldWhenAllImmediates_cases _ folded with rfl | ⟨imm, computed, rfl⟩
  · exact .refl Γ p
  simp only [bind_eq_ok, pure_eq_ok] at computed
  obtain ⟨a, a_reads, b, b_reads, rfl⟩ := computed
  intro env ρ consistent _
  refine consistent.replaceUsesWith ?_
  rw [consistent.eq_evalOp opcode notPhi, computes]
  simp [Program.denote_of_u32 consistent a_reads, Program.denote_of_u32 consistent b_reads]

theorem foldBinary32_keepsValuations {op : Opcode} {fn : BitVec 32 → BitVec 32 → Imm}
    (opcode : (p.insts inst).op = op) (notPhi : ∀ type, op ≠ .phi type)
    (computes : ∀ env arg, evalOp env op arg = .scalar (fn (arg 0).u32 (arg 1).u32))
    (folded : foldBinary32 p inst fn = .ok p') : p.KeepsValuations Γ p' := by
  obtain ⟨result, computed, rfl⟩ := map_eq_ok.mp folded
  exact foldWhenAllImmediates_binary_keepsValuations opcode notPhi computes result computed

/-- A bit-field fold either leaves the program, or installs what `fn` computes from the three
`u32` its operands read as. -/
theorem foldBitField_replaced
    {fn : BitVec 32 → BitVec 32 → BitVec 32 → Except Exception (BitVec 32)}
    (folded : foldBitField p inst fn = .ok p') : p' = p ∨
      ∃ base shift count field, p.u32 ((p.insts inst).arg 0) = .ok base ∧
        p.u32 ((p.insts inst).arg 1) = .ok shift ∧ p.u32 ((p.insts inst).arg 2) = .ok count ∧
        fn base shift count = .ok field ∧ p' = p.replaceUsesWith inst (.imm (.u32 field)) := by
  obtain ⟨result, swept, rfl⟩ := map_eq_ok.mp folded
  rcases foldWhenAllImmediates_cases _ swept with rfl | ⟨imm, evaluated, rfl⟩
  · exact .inl rfl
  simp only [bind_eq_ok, pure_eq_ok] at evaluated
  obtain ⟨base, base_reads, shift, shift_reads, count, count_reads, field, computed, rfl⟩ :=
    evaluated
  exact .inr ⟨base, shift, count, field, base_reads, shift_reads, count_reads, computed, rfl⟩

section BitField

variable {base shift count field : BitVec 32}

/-- The replaced instruction is an `Identity`. -/
private theorem replaceUsesWith_op (value : Value) :
    ((p.replaceUsesWith inst value).insts inst).op = .identity := by
  simp [Program.replaceUsesWith]

/-- A `BitFieldUExtract` of fewer than 32 bits folds to its field; the fold of a whole word is
excluded by `exact`. -/
theorem foldBitFieldUExtract_keepsValuations (opcode : (p.insts inst).op = .bitFieldUExtract)
    (exact : p.u32 ((p.insts inst).arg 2) = .ok 32 → (p'.insts inst).op ≠ .identity)
    (folded : foldBitField p inst bitFieldUExtractImm = .ok p') : p.KeepsValuations Γ p' := by
  rcases foldBitField_replaced folded with
    rfl | ⟨base, shift, count, field, base_reads, shift_reads, count_reads, computed, rfl⟩
  · exact .refl Γ _
  have narrow : count.toNat ≠ 32 := fun boundary =>
    exact (BitVec.eq_of_toNat_eq (show count.toNat = (32 : BitVec 32).toNat from boundary) ▸
      count_reads) (replaceUsesWith_op _)
  have fits : shift.toNat + count.toNat ≤ 32 := Nat.not_lt.mp fun wide => by
    obtain ⟨error, thrown⟩ := (bitFieldUExtractImm_eq_error_iff base shift count).mpr wide
    exact nomatch thrown.symm.trans computed
  rw [bitFieldUExtractImm_of_lt base shift count fits (by omega)] at computed
  cases computed
  intro env ρ consistent _
  refine consistent.replaceUsesWith ?_
  rw [consistent.eq_evalOp opcode (by simp)]
  simp [evalOp, Program.denote_of_u32 consistent base_reads,
    Program.denote_of_u32 consistent shift_reads, Program.denote_of_u32 consistent count_reads]

/-- A `BitFieldSExtract` of at least one bit folds to its sign-extended field; the fold of no bits
is excluded by `exact`. -/
theorem foldBitFieldSExtract_keepsValuations (opcode : (p.insts inst).op = .bitFieldSExtract)
    (exact : p.u32 ((p.insts inst).arg 2) = .ok 0 → (p'.insts inst).op ≠ .identity)
    (folded : foldBitField p inst bitFieldSExtractImm = .ok p') : p.KeepsValuations Γ p' := by
  rcases foldBitField_replaced folded with
    rfl | ⟨base, shift, count, field, base_reads, shift_reads, count_reads, computed, rfl⟩
  · exact .refl Γ _
  have nonempty : count.toNat ≠ 0 := fun empty =>
    exact (BitVec.eq_of_toNat_eq (show count.toNat = (0 : BitVec 32).toNat from empty) ▸
      count_reads) (replaceUsesWith_op _)
  have fits : shift.toNat + count.toNat ≤ 32 := Nat.not_lt.mp fun wide => by
    obtain ⟨error, thrown⟩ := (bitFieldSExtractImm_eq_error_iff base shift count).mpr wide
    exact nomatch thrown.symm.trans computed
  rw [bitFieldSExtractImm_of_pos base shift count fits (by omega)] at computed
  cases computed
  intro env ρ consistent _
  refine consistent.replaceUsesWith ?_
  rw [consistent.eq_evalOp opcode (by simp)]
  simp only [evalOp, Program.denote_of_u32 consistent base_reads,
    Program.denote_of_u32 consistent shift_reads]
  rw [Program.denote_of_u32 consistent count_reads]
  rfl

end BitField

section Subtract

variable {env : Env} {ρ : Nat → Datum}

/-- Two constant-buffer reads that `equal_cbuf` finds equal read the same word. -/
theorem equalCbuf_denote (consistent : p.Consistent env ρ) {a b : Nat}
    (same : equalCbuf p a b = true) : ρ a = ρ b := by
  simp only [equalCbuf, Bool.and_eq_true, decide_eq_true_eq] at same
  obtain ⟨⟨⟨isCbufA, isCbufB⟩, first⟩, second⟩ := same
  rw [consistent.eq_evalOp isCbufA (by simp), consistent.eq_evalOp isCbufB (by simp)]
  simp only [evalOp, first, second]

/-- `(x + c) - c` and `(c + x) - c` are `x`: the subtrahend `c` is a constant-buffer read that
`equal_cbuf` finds equal to the operand `y` of the add. -/
theorem cancel_keepsValuations (wf : p.WellFormed Γ D) (opcode : (p.insts inst).op = .iSub32)
    {add cbuf addCbuf : Nat} {x y : Value}
    (resolvesA : p.resolve ((p.insts inst).arg 0) = .ok (.inst add))
    (isAdd : (p.insts add).op = .iAdd32)
    (resolvesB : p.resolve ((p.insts inst).arg 1) = .ok (.inst cbuf))
    (sides : x = (p.insts add).arg 0 ∧ y = (p.insts add).arg 1 ∨
      x = (p.insts add).arg 1 ∧ y = (p.insts add).arg 0)
    (resolvesY : p.resolve y = .ok (.inst addCbuf)) (cancels : equalCbuf p addCbuf cbuf = true) :
    p.KeepsValuations Γ (p.replaceUsesWith inst x) := by
  intro env ρ consistent typedBelow
  refine consistent.replaceUsesWith ?_
  have x_typed : (x.denote ρ).HasType .u32 := by
    rcases sides with ⟨rfl, -⟩ | ⟨rfl, -⟩ <;>
      exact wf.typed.arg_hasType wf.closed typedBelow isAdd rfl _
  have y_value : y.denote ρ = ρ cbuf :=
    (resolve_denote consistent resolvesY).trans (equalCbuf_denote consistent cancels)
  refine (?_ : _ = Datum.scalar (.u32 (x.denote ρ).u32)).trans
    (Datum.eq_of_hasType_u32 x_typed).symm
  rw [consistent.eq_evalOp opcode (by simp)]
  simp only [evalOp, resolve_denote consistent resolvesA, resolve_denote consistent resolvesB,
    Value.denote_inst, consistent.eq_evalOp isAdd (by simp), Datum.u32_scalar]
  rcases sides with ⟨rfl, rfl⟩ | ⟨rfl, rfl⟩ <;> simp [y_value]

/-- `%0 = GetCbufU32 #0, #8`, `%1 = GetCbufU32 #0, #8`, `%2 = ISub32 %0, %1`, the subtract
carrying a pseudo-operation. -/
def cbufSelfSubtract : Program :=
  .ofInsts
    [{ op := .getCbufU32, args := [.imm (.u32 0), .imm (.u32 8)] },
     { op := .getCbufU32, args := [.imm (.u32 0), .imm (.u32 8)] },
     { op := .iSub32, args := [.inst 0, .inst 1], pseudo := true }]

/-- The pass turns the subtract into an `Identity` of `0` although it carries a
pseudo-operation. -/
theorem cbufSelfSubtract_replaced :
    (cbufSelfSubtract.insts 2).pseudo = true ∧
      (constantPropagationPass cbufSelfSubtract).map (·.insts 2) =
        .ok { op := .identity, args := [.imm (.u32 0)], pseudo := true } :=
  ⟨rfl, rfl⟩

/-- With a subtrahend that does not resolve to an add, no operand swap happens, and every rule of
`FoldISub32` keeps the value. -/
theorem foldISub32_keepsValuations_of_unswapped (wf : p.WellFormed Γ D)
    (opcode : (p.insts inst).op = .iSub32)
    (unswapped : ¬∃ add, p.resolve ((p.insts inst).arg 1) = .ok (.inst add) ∧
      (p.insts add).op = .iAdd32) :
    ∀ p', foldISub32 p inst = .ok p' → p.KeepsValuations Γ p' := by
  have kept := Program.KeepsValuations.refl Γ p
  unfold foldISub32
  refine forall_ok_bind_with fun result computed => ?_
  rcases foldWhenAllImmediates_cases _ computed with rfl | ⟨imm, -, rfl⟩
  swap
  · refine forall_ok_ite_with (fun _ => forall_ok_pure ?_) fun no => absurd rfl no
    refine foldWhenAllImmediates_binary_keepsValuations opcode (by simp) ?_ _ computed
    exact fun _ _ => rfl
  refine forall_ok_ite (forall_ok_pure kept) ?_
  refine forall_ok_bind fun _ => forall_ok_ite (forall_ok_pure kept) ?_
  refine forall_ok_bind fun _ => forall_ok_ite (forall_ok_pure kept) ?_
  refine forall_ok_bind_with fun opA resolvesA => forall_ok_bind_with fun opB resolvesB => ?_
  rw [Program.instRecursive_eq_ok] at resolvesA resolvesB
  refine forall_ok_ite_with (fun same => forall_ok_pure fun env ρ consistent _ => ?_) fun _ => ?_
  · refine consistent.replaceUsesWith ?_
    rw [consistent.eq_evalOp opcode (by simp)]
    simp [evalOp, resolve_denote consistent resolvesA, resolve_denote consistent resolvesB,
      equalCbuf_denote consistent same]
  rw [if_neg fun isAdd => unswapped ⟨opB, resolvesB, isAdd⟩]
  refine forall_ok_ite (forall_ok_pure kept) ?_
  refine forall_ok_ite_with (fun _ => forall_ok_pure kept) fun isAdd => ?_
  replace isAdd := not_not.mp isAdd
  refine forall_ok_bind fun _ => forall_ok_ite ?_ ?_ <;>
    refine forall_ok_bind_with fun pair chosen => ?_ <;>
    obtain rfl := pure_eq_ok.mp chosen <;>
    refine forall_ok_bind fun _ => forall_ok_ite (forall_ok_pure kept) ?_ <;>
    refine forall_ok_bind_with fun addCbuf resolvesY => forall_ok_ite_with
      (fun cancels => forall_ok_pure ?_) fun _ => forall_ok_pure kept <;>
    rw [Program.instRecursive_eq_ok] at resolvesY
  · exact cancel_keepsValuations wf opcode resolvesA isAdd resolvesB (.inr ⟨rfl, rfl⟩) resolvesY
      cancels
  · exact cancel_keepsValuations wf opcode resolvesA isAdd resolvesB (.inl ⟨rfl, rfl⟩) resolvesY
      cancels

/-- `FoldISub32` keeps every execution unless it cancels `c - (X + c)` into `X`, the rewrite after
the operand swap that C++ comments call canonicalizing. -/
theorem foldISub32_keepsValuations (wf : p.WellFormed Γ D) (opcode : (p.insts inst).op = .iSub32)
    (exact : (∃ add, p.resolve ((p.insts inst).arg 1) = .ok (.inst add) ∧
      (p.insts add).op = .iAdd32) → (p'.insts inst).op ≠ .identity)
    (folded : foldISub32 p inst = .ok p') : p.KeepsValuations Γ p' := by
  by_cases swapped : ∃ add, p.resolve ((p.insts inst).arg 1) = .ok (.inst add) ∧
      (p.insts add).op = .iAdd32
  · rcases foldISub32_cases p' folded with rfl | ⟨_, rfl⟩ | ⟨_, _, _, _, _, rfl⟩
    · exact .refl Γ _
    all_goals exact absurd (replaceUsesWith_op _) (exact swapped)
  · exact foldISub32_keepsValuations_of_unswapped wf opcode swapped p' folded

/-- `%0 = GetRegister R1`, `%1 = GetCbufU32 #0, #8`, `%2 = IAdd32 %0, %1`,
`%3 = ISub32 %1, %2`: the constant minus the sum, so `-R1`. -/
def reversedCancel : Program :=
  .ofInsts
    [{ op := .getRegister, args := [.imm (.reg ⟨1⟩)] },
     { op := .getCbufU32, args := [.imm (.u32 0), .imm (.u32 8)] },
     { op := .iAdd32, args := [.inst 0, .inst 1] },
     { op := .iSub32, args := [.inst 1, .inst 2] }]

/-- In every execution of `reversedCancel`, `%0` is `R1` and `%3` is `-R1`. -/
theorem reversedCancel_values {env : Env} {ρ : Nat → Datum}
    (consistent : reversedCancel.Consistent env ρ) :
    ρ 0 = .scalar (.u32 (env.reg ⟨1⟩)) ∧ ρ 3 = .scalar (.u32 (-env.reg ⟨1⟩)) := by
  have register := consistent 0
  have constant := consistent 1
  have sum := consistent 2
  have difference := consistent 3
  simp only [Program.Satisfies, Program.eval, reversedCancel, Program.ofInsts,
    List.getD_cons_zero, List.getD_cons_succ, evalOp, Inst.arg, Value.denote_inst,
    Value.denote_imm] at register constant sum difference
  refine ⟨by simpa [Datum.reg, Reg.RZ] using register, ?_⟩
  rw [difference, sum, constant, register]
  simp only [Datum.u32, Datum.reg, Reg.RZ]
  simp only [show (⟨1⟩ : Reg) ≠ ⟨255⟩ by decide, if_false]
  congr 2
  ring

/-- `FoldISub32` replaces `c - (R1 + c)` by `R1`, where every execution gives it `-R1`. -/
theorem reversedCancel_folds_to_addend :
    (foldISub32 reversedCancel 3).map (·.insts 3) = .ok { op := .identity, args := [.inst 0] } ∧
      ∀ env ρ, reversedCancel.Consistent env ρ →
        (Value.inst 0).denote ρ = .scalar (.u32 (env.reg ⟨1⟩)) ∧
          ρ 3 = .scalar (.u32 (-env.reg ⟨1⟩)) :=
  ⟨rfl, fun _ _ consistent => reversedCancel_values consistent⟩

/-- What the pass makes of `reversedCancel`. -/
def reversedCancelFolded : Program := reversedCancel.replaceUsesWith 3 (.inst 0)

/-- The pass rewrites `reversedCancel` so that the subtract evaluates to `R1` instead of `-R1`. -/
theorem reversedCancel_pass_changes_value :
    constantPropagationPass reversedCancel = .ok reversedCancelFolded ∧
      (∀ env ρ, reversedCancel.Consistent env ρ → ρ 3 = .scalar (.u32 (-env.reg ⟨1⟩))) ∧
      ∀ env ρ, reversedCancelFolded.Consistent env ρ → ρ 3 = .scalar (.u32 (env.reg ⟨1⟩)) := by
  refine ⟨rfl, fun _ _ consistent => (reversedCancel_values consistent).2, fun env ρ consistent => ?_⟩
  rw [consistent.eq_replacement, Value.denote_inst,
    consistent.eq_evalOp (show (reversedCancelFolded.insts 0).op = .getRegister from rfl) (by simp)]
  simp [evalOp, Datum.reg, Reg.RZ, Inst.arg, reversedCancelFolded, Program.replaceUsesWith,
    Program.setInst, reversedCancel, Program.ofInsts]

end Subtract

section Replace

/-- `FoldSelect` on an immediate condition installs the value the select takes. -/
theorem foldSelect_keepsValuations {type : Ty} (opcode : (p.insts inst).op = .select type) :
    ∀ p', foldSelect p inst = .ok p' → p.KeepsValuations Γ p' := by
  unfold foldSelect
  refine forall_ok_bind fun _ => forall_ok_ite
    (forall_ok_bind_with fun taken read => forall_ok_pure ?_) (forall_ok_pure (.refl Γ p))
  intro env ρ consistent _
  refine consistent.replaceUsesWith ?_
  rw [consistent.eq_evalOp opcode (by simp)]
  cases taken <;> simp [evalOp, Program.denote_of_u1 consistent read]

/-- `FoldLogicalNot` installs the negated immediate, or the boolean a double negation negates
twice. -/
theorem foldLogicalNot_keepsValuations (wf : p.WellFormed Γ D)
    (opcode : (p.insts inst).op = .logicalNot) :
    ∀ p', foldLogicalNot p inst = .ok p' → p.KeepsValuations Γ p' := by
  unfold foldLogicalNot
  refine forall_ok_bind fun _ => forall_ok_ite
    (forall_ok_bind_with fun b read => forall_ok_pure fun env ρ consistent _ => ?_) ?_
  · refine consistent.replaceUsesWith ?_
    rw [consistent.eq_evalOp opcode (by simp)]
    simp [evalOp, Program.denote_of_u1 consistent read]
  refine forall_ok_bind_with fun arg resolves => forall_ok_ite_with
    (fun isNot => forall_ok_pure fun env ρ consistent typedBelow => ?_)
    fun _ => forall_ok_pure (.refl Γ p)
  rw [Program.instRecursive_eq_ok] at resolves
  refine consistent.replaceUsesWith ((?_ : _ = Datum.scalar (.u1 _)).trans
    (Datum.eq_of_hasType_u1 (wf.typed.arg_hasType wf.closed typedBelow isNot rfl 0)).symm)
  rw [consistent.eq_evalOp opcode (by simp)]
  simp [evalOp, resolve_denote consistent resolves, consistent.eq_evalOp isNot (by simp)]

/-- A fold whose every rewrite is an `Identity` keeps every execution when it rewrites nothing. -/
theorem keepsValuations_of_not_replaced (exact : (p'.insts inst).op ≠ .identity)
    (outcomes : p' = p ∨ ∃ value, p' = p.replaceUsesWith inst value) :
    p.KeepsValuations Γ p' := by
  rcases outcomes with rfl | ⟨value, rfl⟩
  · exact .refl Γ _
  · exact absurd (replaceUsesWith_op value) exact

/-- `FoldFPMul32`, whose rewrite assumes floating-point laws, keeps the execution when it does not
fire. -/
theorem foldFPMul32_keepsValuations (exact : (p'.insts inst).op ≠ .identity)
    (folded : foldFPMul32 p inst = .ok p') : p.KeepsValuations Γ p' :=
  keepsValuations_of_not_replaced exact
    ((foldFPMul32_cases p' folded).imp_right fun ⟨_, _, _, replaced⟩ => ⟨_, replaced⟩)

/-- The same for `FoldInverseFunc`, whose rewrite assumes `PackHalf2x16` and `UnpackHalf2x16`
undo each other. -/
theorem foldInverseFunc_keepsValuations {reverse : Opcode}
    (exact : (p'.insts inst).op ≠ .identity) (folded : foldInverseFunc p inst reverse = .ok p') :
    p.KeepsValuations Γ p' :=
  keepsValuations_of_not_replaced exact
    ((foldInverseFunc_cases p' folded).imp_right fun ⟨_, _, _, replaced⟩ => ⟨_, replaced⟩)

/-- `FoldBitCast` installs the cast of an immediate, the argument of the reverse cast, or, for the
cast of a constant-buffer read, a typed read of the same binding and offset: `cast` says the
instruction computes the cast of an immediate, `undoes` that it undoes the reverse cast. -/
theorem foldBitCast_keepsValuations (wf : p.WellFormed Γ D) {op reverse : Opcode}
    {bitCast : Program → Value → Except Exception Imm} (opcode : (p.insts inst).op = op)
    (plain : op.isPlain) (reversePlain : reverse.isPlain)
    (cast : ∀ imm, bitCast p ((p.insts inst).arg 0) = .ok imm → ∀ env ρ, p.Consistent env ρ →
      p.eval env ρ inst = .scalar imm)
    (undoes : ∀ env (arg arg' : Nat → Datum), (arg' 0).HasType (reverse.argTypes.getD 0 .void) →
      arg 0 = evalOp env reverse arg' → evalOp env op arg = arg' 0)
    (folded : foldBitCast op bitCast p inst reverse = .ok p') : p.KeepsValuations Γ p' := by
  have notPhi : ∀ type, (p.insts inst).op ≠ .phi type := opcode ▸ Opcode.ne_phi_of_isPlain plain
  rcases foldBitCast_cases p' folded with
    rfl | ⟨imm, casts, rfl⟩ | ⟨arg, resolves, ⟨isReverse, rfl⟩ | ⟨rfl, isCbuf, rfl⟩⟩
  · exact .refl Γ _
  · exact fun env ρ consistent _ => consistent.replaceUsesWith
      (((Program.satisfies_iff notPhi).mp (consistent inst)).trans
        (cast imm casts env ρ consistent))
  · refine fun env ρ consistent typedBelow => consistent.replaceUsesWith ?_
    rw [consistent.eq_evalOp opcode (opcode ▸ notPhi)]
    refine undoes env _ (fun index => ((p.insts arg).arg index).denote ρ)
      (wf.typed.arg_hasType wf.closed typedBelow isReverse reversePlain 0) ?_
    rw [resolve_denote consistent resolves, Value.denote_inst,
      consistent.eq_evalOp isReverse (Opcode.ne_phi_of_isPlain reversePlain)]
  have dominates := wf.dominated.resolve_arg notPhi resolves
  have ne : arg ≠ inst := fun same => D.irrefl _ (same ▸ dominates)
  obtain ⟨value, single⟩ := List.length_eq_one.mp (wf.typed.args_length opcode plain)
  simp only [Program.setArg_insts_of_ne _ _ _ ne, Program.replaceOpcode_insts_of_ne _ _ ne]
  rw [p.replaceOpcode_setArg_setArg_of_single single]
  refine fun env ρ consistent _ => consistent.setInst ((Program.satisfies_iff (by simp)).mpr ?_)
  rw [consistent.eq_evalOp opcode (opcode ▸ notPhi)]
  simp only [evalOp, resolve_denote consistent resolves, Value.denote_inst]
  rw [consistent.eq_evalOp isCbuf (by simp)]
  simp [Program.eval, evalOp, Inst.arg]

/-- `FoldBranchConditional` rewrites only the operands of a branch, whose equation reads none. -/
theorem foldBranchConditional_keepsValuations (wf : p.WellFormed Γ D)
    (opcode : (p.insts inst).op = .branchConditional)
    (folded : foldBranchConditional p inst = .ok p') : p.KeepsValuations Γ p' := by
  rcases foldBranchConditional_cases p' folded with rfl | ⟨cond, resolves, isNot, rfl⟩
  · exact .refl Γ _
  obtain ⟨_, _, _, triple⟩ := List.length_eq_three.mp (wf.typed.args_length opcode rfl)
  rw [p.setArg_setArg_setArg_of_triple triple]
  refine fun env ρ consistent _ =>
    consistent.setInst ((Program.satisfies_iff (by simp [opcode])).mpr ?_)
  rw [consistent.eq_evalOp opcode (by simp)]
  simp [Program.eval, evalOp, opcode]

end Replace

section Extract

variable {env : Env} {ρ : Nat → Datum} {type : CompositeType} {i : BitVec 32}

/-- In an execution, what `FoldCompositeExtractImpl` finds for a lane below the lane count is the
lane's value in the composite it starts from. -/
theorem foldCompositeExtractImplWith_denote (wf : p.WellFormed Γ D)
    (consistent : p.Consistent env ρ) (typedBelow : ∀ id < p.count, (ρ id).HasType (Γ id))
    (lane : i.toNat < type.lanes) (fuel : Nat) :
    ∀ value result, foldCompositeExtractImplWith p (.compositeInsert type)
        (.compositeConstruct type) i fuel value = .ok result →
      ∀ v, result = some v → v.denote ρ = .scalar ((value.denote ρ).lanes.getD i.toNat .void) := by
  have laneTyped : ∀ {d index}, ((p.insts d).arg index).typeIn Γ = type.laneType →
      ((p.insts d).arg index).denote ρ = .scalar (((p.insts d).arg index).denote ρ).lane :=
    fun typed => Datum.eq_scalar_of_hasType_laneType
      (typed ▸ Value.denote_hasType_of_refersBelow typedBelow (wf.closed.arg _ _))
  induction fuel using Nat.strong_induction_on with
  | _ fuel ih =>
    intro value
    rw [foldCompositeExtractImplWith]
    refine forall_ok_bind_with fun d resolves => ?_
    rw [Program.instRecursive_eq_ok] at resolves
    rw [resolve_denote consistent resolves, Value.denote_inst]
    refine forall_ok_ite_with (fun isConstruct => forall_ok_pure fun v found => ?_) fun _ => ?_
    · cases found
      rw [consistent.eq_evalOp isConstruct (by simp)]
      simp only [evalOp, Datum.lanes_composite, List.getD_eq_getElem?_getD, List.getElem?_map,
        List.getElem?_range lane, Option.map_some', Option.getD_some]
      exact laneTyped (construct_operand_type (wf.typed _) isConstruct lane)
    refine forall_ok_ite_with (fun _ => forall_ok_pure nofun) fun isInsert => ?_
    replace isInsert := not_not.mp isInsert
    obtain ⟨composite_type, object_type⟩ := insert_operand_types (wf.typed d) isInsert
    obtain ⟨-, length⟩ := Datum.eq_composite_of_hasType
      (composite_type ▸ Value.denote_hasType_of_refersBelow typedBelow (wf.closed.arg d 0))
    rw [consistent.eq_evalOp isInsert (by simp)]
    simp only [evalOp, Datum.lanes_composite, List.getD_eq_getElem?_getD, List.getElem?_set]
    refine forall_ok_bind fun _ => forall_ok_ite (forall_ok_pure nofun) ?_
    refine forall_ok_bind_with fun j index => ?_
    rw [Program.denote_of_u32 consistent index, Datum.u32_scalar]
    refine forall_ok_ite_with (fun miss => ?_) fun hit => forall_ok_pure fun v found => ?_
    · refine forall_ok_bind fun _ => forall_ok_ite (forall_ok_pure nofun) ?_
      have miss : j.toNat ≠ i.toNat := fun same => miss (BitVec.eq_of_toNat_eq same).symm
      simp only [miss, if_false]
      cases fuel with
      | zero => exact fun _ thrown => absurd thrown throw_ne_ok
      | succ fuel =>
          intro result walked v found
          rw [ih fuel (Nat.lt_succ_self _) _ result walked v found, List.getD_eq_getElem?_getD]
    · cases found
      obtain rfl : j = i := (not_not.mp hit).symm
      simp only [length, lane, if_true, Option.getD_some]
      exact laneTyped object_type

/-- `FoldCompositeExtract` installs the lane it finds, which is the extract's value. -/
theorem foldCompositeExtract_keepsValuations (wf : p.WellFormed Γ D)
    (opcode : (p.insts inst).op = .compositeExtract type)
    (folded : foldCompositeExtract p inst (.compositeConstruct type) (.compositeInsert type) =
      .ok p') : p.KeepsValuations Γ p' := by
  rcases foldCompositeExtract_cases p' folded with rfl | ⟨i, v, index, walked, rfl⟩
  · exact .refl Γ _
  obtain ⟨j, literal, lane⟩ := wf.extractsInRange inst type opcode
  rw [literal, Program.u32_imm] at index
  cases index
  intro env ρ consistent typedBelow
  refine consistent.replaceUsesWith ?_
  rw [foldCompositeExtractImplWith_denote wf consistent typedBelow lane _ _ _ walked v rfl,
    consistent.eq_evalOp opcode (by simp)]
  simp [evalOp, literal]

end Extract

section Commutative

open CommutativeOp

variable {T : Type} {F : CommutativeOp T}

/-- An identity rule keeps every valuation: the first operand is a value of the result's type. -/
theorem keepsValuations_replace_first (F : CommutativeOp T) (wf : p.WellFormed Γ D)
    (opcode : (p.insts inst).op = F.op) {e : T} (neutral : ∀ a, F.immFn a e = a)
    (reads : F.type.arg p ((p.insts inst).arg 1) = .ok e) :
    p.KeepsValuations Γ (p.replaceUsesWith inst ((p.insts inst).arg 0)) := by
  intro env ρ consistent typedBelow
  refine consistent.replaceUsesWith ?_
  rw [value consistent opcode, read_of_arg consistent reads, neutral]
  have first_type := wf.typed.arg_hasType wf.closed typedBelow opcode F.isPlain 0
  rw [F.argTypes_eq] at first_type
  exact (F.eq_of_hasType first_type).symm

/-- An outcome of `FoldCommutative` keeps every valuation. -/
theorem CommutativeStep.keepsValuations {notFolded : Bool} {p₁ : Program}
    (step : CommutativeStep F.type F.immFn p inst (notFolded, p₁))
    (opcode : (p.insts inst).op = F.op) (typed : p.WellTyped Γ) : p.KeepsValuations Γ p₁ :=
  fun _ _ consistent _ => step.consistent opcode typed consistent

/-- `FoldAdd` extends every execution: `FoldCommutative` and the `x + 0` rule keep its valuation,
and the product the XMAD fold emits takes the add's value. -/
theorem foldAdd_extendsExecutions [Add T] [OfNat T 0] [DecidableEq T] {isU32 : Bool}
    (F : CommutativeOp T) (add : ∀ a b, F.immFn a b = a + b) (add_zero : ∀ a : T, a + 0 = a)
    (xmad : isU32 = true → F.op = .iAdd32) (wf : p.WellFormed Γ D)
    (opcode : (p.insts inst).op = F.op) (inArena : inst < p.count)
    (folded : foldAdd F.type isU32 p block inst = .ok p') : p.ExtendsExecutions Γ p' := by
  have immFn_eq : F.immFn = (· + ·) := funext fun a => funext (add a)
  rcases foldAdd_cases folded with rfl | ⟨notFolded, p₁, step, rest⟩
  · exact (Program.KeepsValuations.refl Γ _).extendsExecutions
  rw [← immFn_eq] at step
  have wf₁ := step.wellFormed opcode wf
  have keeps₁ := step.keepsValuations opcode wf.typed
  rcases rest with rfl | ⟨rfl, ⟨zero, rfl⟩ | ⟨u32, matched, product⟩⟩
  · exact keeps₁.extendsExecutions
  · exact (keeps₁.trans step.count_eq (keepsValuations_replace_first F wf₁
      (step.op_eq.trans opcode) (fun a => (add a 0).trans (add_zero a)) zero)).extendsExecutions
  cases matched
  · obtain rfl : p' = p₁ := foldXmadMultiply_declined _ product rfl
    exact keeps₁.extendsExecutions
  obtain ⟨m, rfl⟩ := foldXmadMultiply_eq_ok_true product
  intro env ρ consistent typedBelow
  have consistent₁ := keeps₁ env ρ consistent typedBelow
  have sum := m.add_eq_mul (step.op_eq.trans (opcode.trans (xmad u32))) consistent₁
  have bounded : ∀ value ∈ [m.factorA, m.factorB], value.RefersBelow p₁.count := by
    simpa using ⟨wf₁.closed.arg _ 0, wf₁.closed.arg _ 1⟩
  have emitted := consistent₁.prependNewInst wf₁.closed block inst .iMul32 bounded
  refine ⟨_, fun id below => Function.update_noteq (step.count_eq ▸ Nat.ne_of_lt below) _ _,
    emitted.replaceUsesWith ?_⟩
  rw [Value.denote_inst, Function.update_same,
    Function.update_noteq (Nat.ne_of_lt (step.count_eq ▸ inArena)), sum]
  rfl

/-- `FoldLogicalAnd` keeps every valuation: `x && true` is `x`, a boolean, and `x && false` is
`false`. -/
theorem foldLogicalAnd_keepsValuations (wf : p.WellFormed Γ D)
    (opcode : (p.insts inst).op = .logicalAnd) (folded : foldLogicalAnd p inst = .ok p') :
    p.KeepsValuations Γ p' := by
  obtain ⟨notFolded, p₁, step, rest⟩ := foldLogicalAnd_cases folded
  replace step : CommutativeStep logicalAnd.type logicalAnd.immFn p inst (notFolded, p₁) := step
  rcases rest with rfl | ⟨rfl, b, reads, rfl⟩
  · exact step.keepsValuations opcode wf.typed
  refine (step.keepsValuations opcode wf.typed).trans step.count_eq ?_
  cases b
  · exact fun _ _ consistent _ =>
      consistent_replace_absorbing logicalAnd consistent (step.op_eq.trans opcode) Bool.and_false
        reads
  · exact keepsValuations_replace_first logicalAnd (step.wellFormed opcode wf)
      (step.op_eq.trans opcode) Bool.and_true reads

/-- `FoldLogicalOr` keeps every valuation: `x || true` is `true`, and `x || false` is `x`. -/
theorem foldLogicalOr_keepsValuations (wf : p.WellFormed Γ D)
    (opcode : (p.insts inst).op = .logicalOr) (folded : foldLogicalOr p inst = .ok p') :
    p.KeepsValuations Γ p' := by
  obtain ⟨notFolded, p₁, step, rest⟩ := foldLogicalOr_cases folded
  replace step : CommutativeStep logicalOr.type logicalOr.immFn p inst (notFolded, p₁) := step
  rcases rest with rfl | ⟨rfl, b, reads, rfl⟩
  · exact step.keepsValuations opcode wf.typed
  refine (step.keepsValuations opcode wf.typed).trans step.count_eq ?_
  cases b
  · exact keepsValuations_replace_first logicalOr (step.wellFormed opcode wf)
      (step.op_eq.trans opcode) Bool.or_false reads
  · exact fun _ _ consistent _ =>
      consistent_replace_absorbing logicalOr consistent (step.op_eq.trans opcode) Bool.or_true reads

end Commutative

/-! ## Through the dispatcher -/

/-- `ConstantPropagation` on an `IAdd32`, `IAdd64`, `LogicalAnd` or `LogicalOr` of a well-formed
program returns a program that is again well formed, so that the instruction's new operands, or
the value that replaces it, are defined by instructions that dominate it. Every execution whose
instructions have their types extends to one of the result, in which the instruction evaluates to
what it did. When the program's `Identity` chains end, a `LogicalAnd` or `LogicalOr` with an
operand that resolves to an immediate is replaced. -/
theorem constantPropagation_commutative_sound
    (commutative : (p.insts inst).op ∈ [.iAdd32, .iAdd64, .logicalAnd, .logicalOr])
    (wf : p.WellFormed Γ D) (inArena : inst < p.count) :
    (∀ p', constantPropagation p block inst = .ok p' → p.WellFormedAfter Γ D p' ∧
      ∀ env ρ, p.Consistent env ρ → (∀ id < p.count, (ρ id).HasType (Γ id)) →
        ∃ ρ' : Nat → Datum, (∀ id < p.count, ρ' id = ρ id) ∧ p'.Consistent env ρ' ∧
          p'.eval env ρ' inst = ρ inst) ∧
    ((p.insts inst).op = .logicalAnd ∨ (p.insts inst).op = .logicalOr → p.ChainsEnd →
      (∃ imm, p.resolve ((p.insts inst).arg 0) = .ok (.imm imm)) ∨
        (∃ imm, p.resolve ((p.insts inst).arg 1) = .ok (.imm imm)) →
      ∃ p', constantPropagation p block inst = .ok p' ∧ (p'.insts inst).op = .identity) := by
  refine ⟨fun p' folded => ⟨constantPropagation_wellFormed wf inArena folded, ?_⟩, ?_⟩
  · simp only [List.mem_cons, List.mem_singleton, List.not_mem_nil, or_false] at commutative
    have notPhi : (p'.insts inst).op = (p.insts inst).op ∨ (p'.insts inst).op = .identity →
        ∀ type, (p'.insts inst).op ≠ .phi type := by
      rintro (same | identity) type phi
      · rcases commutative with opcode | opcode | opcode | opcode <;>
          exact Opcode.noConfusion (phi.symm.trans (same.trans opcode))
      · exact Opcode.noConfusion (phi.symm.trans identity)
    rcases commutative with opcode | opcode | opcode | opcode <;>
      simp only [constantPropagation, opcode] at folded
    · exact (foldAdd_extendsExecutions .iAdd32 (fun _ _ => rfl) BitVec.add_zero (fun _ => rfl) wf
        opcode inArena folded).eval_eq inArena (notPhi (foldAdd_op folded))
    · exact (foldAdd_extendsExecutions .iAdd64 (fun _ _ => rfl) BitVec.add_zero
        (fun u32 => absurd u32 Bool.false_ne_true) wf opcode inArena folded).eval_eq inArena
        (notPhi (foldAdd_op folded))
    · exact (foldLogicalAnd_keepsValuations wf opcode folded).extendsExecutions.eval_eq inArena
        (notPhi (foldLogicalAnd_op folded))
    · exact (foldLogicalOr_keepsValuations wf opcode folded).extendsExecutions.eval_eq inArena
        (notPhi (foldLogicalOr_op folded))
  · rintro (opcode | opcode) chains immediate <;> simp only [constantPropagation, opcode]
    · exact foldLogicalAnd_replaces immediate opcode wf.typed chains
    · exact foldLogicalOr_replaces immediate opcode wf.typed chains

/-- `%0 = GetPred P1`, `%1 = LogicalAnd %0, #true`. -/
def predAndTrue : Program :=
  .ofInsts
    [{ op := .getPred, args := [.imm (.pred ⟨1⟩)] },
     { op := .logicalAnd, args := [.inst 0, .imm (.u1 true)] }]

/-- The types of `predAndTrue`: two booleans, and `void` past the arena. -/
def predAndTrueTypes : Nat → Ty
  | 0 | 1 => .u1
  | _ => .void

theorem predAndTrue_wellFormed : predAndTrue.WellFormed predAndTrueTypes .straightLine where
  typed | 0 | 1 | _ + 2 => ⟨rfl, rfl⟩
  closed | 0 | 1 | _ + 2 => by simp [predAndTrue, Program.ofInsts, Value.RefersBelow]
  dominated
    | 0 | 1 | _ + 2 => by
      simp [predAndTrue, Program.ofInsts, Value.AvailableAt, Dominance.straightLine]
  extractsInRange
    | 0, _, extract | 1, _, extract | _ + 2, _, extract => by
      simp [predAndTrue, Program.ofInsts] at extract
  allocated _ _ member := List.mem_range.mp member

theorem predAndTrue_replaced_soundly :
    (predAndTrue.insts 1).op ∈ [.iAdd32, .iAdd64, .logicalAnd, .logicalOr] ∧
      predAndTrue.WellFormed predAndTrueTypes .straightLine ∧ 1 < predAndTrue.count ∧
      (∀ p', constantPropagation predAndTrue 0 1 = .ok p' →
        predAndTrue.WellFormedAfter predAndTrueTypes .straightLine p' ∧
        ∀ env ρ, predAndTrue.Consistent env ρ →
          (∀ id < predAndTrue.count, (ρ id).HasType (predAndTrueTypes id)) →
          ∃ ρ' : Nat → Datum, (∀ id < predAndTrue.count, ρ' id = ρ id) ∧
            p'.Consistent env ρ' ∧ p'.eval env ρ' 1 = ρ 1) ∧
      ((predAndTrue.insts 1).op = .logicalAnd ∨ (predAndTrue.insts 1).op = .logicalOr →
        predAndTrue.ChainsEnd →
        (∃ imm, predAndTrue.resolve ((predAndTrue.insts 1).arg 0) = .ok (.imm imm)) ∨
          (∃ imm, predAndTrue.resolve ((predAndTrue.insts 1).arg 1) = .ok (.imm imm)) →
        ∃ p', constantPropagation predAndTrue 0 1 = .ok p' ∧ (p'.insts 1).op = .identity) :=
  ⟨by decide, predAndTrue_wellFormed, by decide,
    constantPropagation_commutative_sound (by decide) predAndTrue_wellFormed (by decide)⟩

end Shader.Optimization

import Uzuy.Shader.Optimization.ConstantPropagation
import Uzuy.Shader.IR.Resolve

/-!
# What each fold can do

One result per fold of `constant_propagation_pass.cpp` (those of `FoldCommutative`, `FoldAdd`
and the logical folds are with them, in `Commutative`): every program the fold can return, with
the checks the code made on the way. Each proof follows the fold's code, one step per bind or
branch, and peels the early returns, which give the program back unchanged, in one sweep.
-/

namespace Shader.Optimization

open Shader.IR

variable {p : Program} {inst : Nat}

/-- `FoldGetRegister` replaces a read of `RZ` by `0`, and leaves any other read as it was. -/
theorem foldGetRegister_cases : ∀ p', foldGetRegister p inst = .ok p' →
    p' = p ∨ p' = p.replaceUsesWith inst (.imm (.u32 0)) := by
  unfold foldGetRegister
  exact forall_ok_bind fun _ => forall_ok_ite (forall_ok_pure (.inr rfl)) (forall_ok_pure (.inl rfl))

/-- `FoldGetPred` replaces a read of `PT` by `true`, and leaves any other read as it was. -/
theorem foldGetPred_cases : ∀ p', foldGetPred p inst = .ok p' →
    p' = p ∨ p' = p.replaceUsesWith inst (.imm (.u1 true)) := by
  unfold foldGetPred
  exact forall_ok_bind fun _ => forall_ok_ite (forall_ok_pure (.inr rfl)) (forall_ok_pure (.inl rfl))

/-- `FoldWhenAllImmediates` either declines, or replaces the instruction by what `func`
computes from its arguments. -/
theorem foldWhenAllImmediates_cases {func : Program → (Nat → Value) → Except Exception Imm} :
    ∀ result, foldWhenAllImmediates p inst func = .ok result → result = (false, p) ∨
      ∃ imm, func p (p.insts inst).arg = .ok imm ∧ result = (true, p.replaceUsesWith inst (.imm imm)) := by
  unfold foldWhenAllImmediates
  exact forall_ok_bind fun _ => forall_ok_ite (forall_ok_pure (.inl rfl))
    (forall_ok_bind_with fun imm computed => forall_ok_pure (.inr ⟨imm, computed, rfl⟩))

/-- `FoldISub32` folds two immediates, replaces `c - c` by `0`, and replaces a cancelled add of a
constant-buffer read by one of the add's operands. -/
theorem foldISub32_cases : ∀ p', foldISub32 p inst = .ok p' → p' = p ∨
    (∃ x : BitVec 32, p' = p.replaceUsesWith inst (.imm (.u32 x))) ∨
    ∃ add, (p.resolve ((p.insts inst).arg 0) = .ok (.inst add) ∨
        p.resolve ((p.insts inst).arg 1) = .ok (.inst add)) ∧ (p.insts add).op = .iAdd32 ∧
      ∃ index < 2, p' = p.replaceUsesWith inst ((p.insts add).arg index) := by
  unfold foldISub32
  refine forall_ok_bind_with fun result computed => ?_
  rcases foldWhenAllImmediates_cases _ computed with rfl | ⟨imm, subtracted, rfl⟩
  swap
  · simp only [bind_eq_ok, pure_eq_ok] at subtracted
    obtain ⟨x, -, y, -, rfl⟩ := subtracted
    exact forall_ok_ite_with (fun _ => forall_ok_pure (.inr (.inl ⟨_, rfl⟩))) fun no => absurd rfl no
  refine forall_ok_ite (forall_ok_pure (.inl rfl)) ?_
  refine forall_ok_bind fun _ => forall_ok_ite (forall_ok_pure (.inl rfl)) ?_
  refine forall_ok_bind fun _ => forall_ok_ite (forall_ok_pure (.inl rfl)) ?_
  refine forall_ok_bind_with fun opA resolvesA => forall_ok_bind_with fun opB resolvesB => ?_
  refine forall_ok_ite (forall_ok_pure (.inr (.inl ⟨0, rfl⟩))) ?_
  obtain ⟨a, b, canonical, resolves⟩ : ∃ a b,
      (if (p.insts opB).op = .iAdd32 then (opB, opA) else (opA, opB)) = (a, b) ∧
        (p.resolve ((p.insts inst).arg 0) = .ok (.inst a) ∨
          p.resolve ((p.insts inst).arg 1) = .ok (.inst a)) := by
    split
    · exact ⟨opB, opA, rfl, .inr (Program.instRecursive_eq_ok.mp resolvesB)⟩
    · exact ⟨opA, opB, rfl, .inl (Program.instRecursive_eq_ok.mp resolvesA)⟩
  rw [canonical]
  refine forall_ok_ite (forall_ok_pure (.inl rfl)) ?_
  refine forall_ok_ite_with (fun _ => forall_ok_pure (.inl rfl)) fun isAdd => ?_
  refine forall_ok_bind fun _ => forall_ok_ite ?_ ?_ <;>
    refine forall_ok_bind_with fun pair chosen => ?_ <;>
    cases pure_eq_ok.mp chosen <;>
  repeat' first
    | refine forall_ok_ite ?_ ?_
    | refine forall_ok_bind fun _ => ?_
    | exact forall_ok_pure (.inl rfl)
    | exact forall_ok_pure (.inr (.inr ⟨a, resolves, not_not.mp isAdd, 1, by decide, rfl⟩))
    | exact forall_ok_pure (.inr (.inr ⟨a, resolves, not_not.mp isAdd, 0, by decide, rfl⟩))

/-- `FoldSelect` replaces a select on an immediate condition by one of its two values. -/
theorem foldSelect_cases : ∀ p', foldSelect p inst = .ok p' → p' = p ∨
    p' = p.replaceUsesWith inst ((p.insts inst).arg 1) ∨
      p' = p.replaceUsesWith inst ((p.insts inst).arg 2) := by
  unfold foldSelect
  refine forall_ok_bind fun _ => forall_ok_ite (forall_ok_bind fun taken => ?_) (forall_ok_pure (.inl rfl))
  cases taken
  · exact forall_ok_pure (.inr (.inr rfl))
  · exact forall_ok_pure (.inr (.inl rfl))

/-- `FoldFPMul32` replaces `(a * b) * rcp(b)` by `a`: the first argument of the multiply its
first operand resolves to. -/
theorem foldFPMul32_cases : ∀ p', foldFPMul32 p inst = .ok p' → p' = p ∨
    ∃ lhsOp, p.resolve ((p.insts inst).arg 0) = .ok (.inst lhsOp) ∧
      (p.insts lhsOp).op = .fpMul32 ∧ p' = p.replaceUsesWith inst ((p.insts lhsOp).arg 0) := by
  unfold foldFPMul32
  refine forall_ok_ite (forall_ok_pure (.inl rfl)) ?_
  refine forall_ok_bind fun _ => forall_ok_ite (forall_ok_pure (.inl rfl)) ?_
  refine forall_ok_bind fun _ => forall_ok_ite (forall_ok_pure (.inl rfl)) ?_
  refine forall_ok_bind_with fun lhsOp lhs => forall_ok_bind fun _ => ?_
  refine forall_ok_ite_with (fun _ => forall_ok_pure (.inl rfl)) fun isMul => ?_
  repeat' first
    | refine forall_ok_ite ?_ ?_
    | exact forall_ok_pure (.inl rfl)
    | refine forall_ok_bind fun _ => ?_
  exact forall_ok_pure
    (.inr ⟨lhsOp, Program.instRecursive_eq_ok.mp lhs, by simpa using (not_or.mp isMul).1, rfl⟩)

/-- `FoldLogicalNot` replaces the negation of an immediate by an immediate, and that of a
negation by the negated value. -/
theorem foldLogicalNot_cases : ∀ p', foldLogicalNot p inst = .ok p' → p' = p ∨
    (∃ b, p' = p.replaceUsesWith inst (.imm (.u1 b))) ∨
    ∃ arg, p.resolve ((p.insts inst).arg 0) = .ok (.inst arg) ∧ (p.insts arg).op = .logicalNot ∧
      p' = p.replaceUsesWith inst ((p.insts arg).arg 0) := by
  unfold foldLogicalNot
  refine forall_ok_bind fun _ => forall_ok_ite (forall_ok_bind fun b => forall_ok_pure (.inr (.inl ⟨_, rfl⟩))) ?_
  refine forall_ok_bind_with fun arg resolves => forall_ok_ite_with
    (fun isNot => forall_ok_pure (.inr (.inr ⟨arg, Program.instRecursive_eq_ok.mp resolves, isNot, rfl⟩)))
    fun _ => forall_ok_pure (.inl rfl)

/-- `FoldBitCast` replaces a cast of an immediate by an immediate and a cast of the reverse cast
by the original value, and rewrites `BitCastF32U32(GetCbufU32(b, o))` into `GetCbufF32(b, o)`. -/
theorem foldBitCast_cases {op reverse : Opcode} {bitCast : Program → Value → Except Exception Imm} :
    ∀ p', foldBitCast op bitCast p inst reverse = .ok p' → p' = p ∨
      (∃ imm, bitCast p ((p.insts inst).arg 0) = .ok imm ∧ p' = p.replaceUsesWith inst (.imm imm)) ∨
      ∃ arg, p.resolve ((p.insts inst).arg 0) = .ok (.inst arg) ∧
        ((p.insts arg).op = reverse ∧ p' = p.replaceUsesWith inst ((p.insts arg).arg 0) ∨
          op = .bitCastF32U32 ∧ (p.insts arg).op = .getCbufU32 ∧
            p' = (let p := p.replaceOpcode inst .getCbufF32
              let p := p.setArg inst 0 ((p.insts arg).arg 0)
              p.setArg inst 1 ((p.insts arg).arg 1))) := by
  unfold foldBitCast
  refine forall_ok_bind fun _ => forall_ok_ite
    (forall_ok_bind_with fun imm casts => forall_ok_pure (.inr (.inl ⟨imm, casts, rfl⟩))) ?_
  refine forall_ok_bind_with fun arg resolves => forall_ok_ite_with
    (fun isReverse => forall_ok_pure (.inr (.inr ⟨arg, Program.instRecursive_eq_ok.mp resolves, .inl ⟨isReverse, rfl⟩⟩)))
    fun _ => forall_ok_ite_with
      (fun cbuf => forall_ok_pure (.inr (.inr ⟨arg, Program.instRecursive_eq_ok.mp resolves, .inr ⟨cbuf.1, cbuf.2, rfl⟩⟩)))
      fun _ => forall_ok_pure (.inl rfl)

/-- `FoldInverseFunc` replaces an operation on its inverse by the inverse's argument. -/
theorem foldInverseFunc_cases {reverse : Opcode} : ∀ p', foldInverseFunc p inst reverse = .ok p' → p' = p ∨
    ∃ arg, p.resolve ((p.insts inst).arg 0) = .ok (.inst arg) ∧ (p.insts arg).op = reverse ∧
      p' = p.replaceUsesWith inst ((p.insts arg).arg 0) := by
  unfold foldInverseFunc
  refine forall_ok_bind fun _ => forall_ok_ite (forall_ok_pure (.inl rfl)) ?_
  exact forall_ok_bind_with fun arg resolves => forall_ok_ite_with
    (fun isReverse => forall_ok_pure (.inr ⟨arg, Program.instRecursive_eq_ok.mp resolves, isReverse, rfl⟩))
    fun _ => forall_ok_pure (.inl rfl)

/-- `FoldBranchConditional` removes a negation from the condition and swaps the targets. -/
theorem foldBranchConditional_cases : ∀ p', foldBranchConditional p inst = .ok p' → p' = p ∨
    ∃ cond, p.resolve ((p.insts inst).arg 0) = .ok (.inst cond) ∧ (p.insts cond).op = .logicalNot ∧
      p' = ((p.setArg inst 0 ((p.insts cond).arg 0)).setArg inst 1 ((p.insts inst).arg 2)).setArg
        inst 2 ((p.insts inst).arg 1) := by
  unfold foldBranchConditional
  refine forall_ok_bind fun _ => forall_ok_ite (forall_ok_pure (.inl rfl)) ?_
  exact forall_ok_bind_with fun cond resolves => forall_ok_ite_with
    (fun isNot => forall_ok_pure (.inr ⟨cond, Program.instRecursive_eq_ok.mp resolves, isNot, rfl⟩))
    fun _ => forall_ok_pure (.inl rfl)

/-- One call of `FoldCompositeExtractImpl` that finds a value: its argument resolves to a
construct, whose lane it returns; or to an insert, whose object it returns or on whose composite
it recurses. -/
theorem foldCompositeExtractImplWith_eq_some {insert construct : Opcode} {i : BitVec 32}
    {fuel : Nat} {value v : Value}
    (found : foldCompositeExtractImplWith p insert construct i fuel value = .ok (some v)) :
    ∃ d, p.resolve value = .ok (.inst d) ∧
      ((p.insts d).op = construct ∧ v = (p.insts d).arg i.toNat ∨
        (p.insts d).op = insert ∧ (v = (p.insts d).arg 1 ∨ ∃ fuel', fuel = fuel' + 1 ∧
          foldCompositeExtractImplWith p insert construct i fuel' ((p.insts d).arg 0) =
            .ok (some v))) := by
  suffices ∀ result, foldCompositeExtractImplWith p insert construct i fuel value = .ok result →
      ∀ v, result = some v → ∃ d, p.resolve value = .ok (.inst d) ∧
        ((p.insts d).op = construct ∧ v = (p.insts d).arg i.toNat ∨
          (p.insts d).op = insert ∧ (v = (p.insts d).arg 1 ∨ ∃ fuel', fuel = fuel' + 1 ∧
            foldCompositeExtractImplWith p insert construct i fuel' ((p.insts d).arg 0) =
              .ok (some v))) from this _ found v rfl
  rw [foldCompositeExtractImplWith]
  refine forall_ok_bind_with fun d resolves => ?_
  rw [Program.instRecursive_eq_ok] at resolves
  refine forall_ok_ite_with (fun isConstruct => forall_ok_pure fun _ found =>
    ⟨d, resolves, .inl ⟨isConstruct, (Option.some.inj found).symm⟩⟩) fun _ => ?_
  refine forall_ok_ite_with (fun _ => forall_ok_pure nofun) fun isInsert => ?_
  refine forall_ok_bind fun _ => forall_ok_ite (forall_ok_pure nofun) ?_
  refine forall_ok_bind fun _ => forall_ok_ite ?_ (forall_ok_pure fun _ found =>
    ⟨d, resolves, .inr ⟨not_not.mp isInsert, .inl (Option.some.inj found).symm⟩⟩)
  refine forall_ok_bind fun _ => forall_ok_ite (forall_ok_pure nofun) ?_
  cases fuel with
  | zero => exact fun _ thrown => absurd thrown throw_ne_ok
  | succ fuel => exact fun _ walked _ found =>
      ⟨d, resolves, .inr ⟨not_not.mp isInsert, .inr ⟨fuel, rfl, found ▸ walked⟩⟩⟩

/-- `FoldCompositeExtract` replaces an extract by what `FoldCompositeExtractImpl` finds, if
anything. -/
theorem foldCompositeExtract_cases {construct insert : Opcode} :
    ∀ p', foldCompositeExtract p inst construct insert = .ok p' → p' = p ∨
      ∃ i v, p.u32 ((p.insts inst).arg 1) = .ok i ∧
        foldCompositeExtractImpl p ((p.insts inst).arg 0) insert construct i = .ok (some v) ∧
        p' = p.replaceUsesWith inst v := by
  unfold foldCompositeExtract
  refine forall_ok_bind fun _ => forall_ok_ite (forall_ok_pure (.inl rfl)) ?_
  refine forall_ok_bind fun _ => forall_ok_ite (forall_ok_pure (.inl rfl)) ?_
  refine forall_ok_bind_with fun i index => forall_ok_bind_with fun found walked => ?_
  cases found with
  | none => exact forall_ok_pure (.inl rfl)
  | some v => exact forall_ok_pure (.inr ⟨i, v, index, walked, rfl⟩)

end Shader.Optimization

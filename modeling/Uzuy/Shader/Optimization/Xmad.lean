import Uzuy.Shader.Optimization.ConstantPropagation
import Uzuy.Shader.IR.Resolve
import Mathlib.Tactic.Ring

/-!
# The XMAD multiply idiom

`FoldXmadMultiply` recognises the two half products a Maxwell `XMAD` sequence leaves for a
32-bit multiply and replaces their sum by one `IMul32`. The matcher accepts exactly the shape
`(BitFieldUExtract(a, 16, 16) * b) << 16` plus `BitFieldUExtract(a, 0, 16) * b'`, with `a, a'`
and `b, b'` resolving alike, and splitting `a` into its halves shows the sum is `a * b`.
-/

namespace Shader.Optimization

open Shader.IR

/-! ## The half-product identity -/

private theorem and_low_mask (x : Nat) : x &&& 0xFFFF = x % 2 ^ 16 :=
  Nat.and_pow_two_sub_one_eq_mod x 16

/-- The high and low 16-bit halves of a word put it back together. -/
theorem halves_recombine (a : BitVec 32) :
    ((a >>> 16) &&& 0xFFFF) * BitVec.twoPow 32 16 + (a &&& 0xFFFF) = a := by
  apply BitVec.eq_of_toNat_eq
  simp [Nat.shiftRight_eq_div_pow, Nat.shiftLeft_eq, and_low_mask]
  omega

/-- The arithmetic behind the idiom: modulo `2^32`, the two half products add up to `a * b`. -/
theorem xmad_halves (a b : BitVec 32) :
    (((a >>> 16) &&& 0xFFFF) * b) <<< 16 + (a &&& 0xFFFF) * b = a * b :=
  calc (((a >>> 16) &&& 0xFFFF) * b) <<< 16 + (a &&& 0xFFFF) * b
      = (((a >>> 16) &&& 0xFFFF) * BitVec.twoPow 32 16 + (a &&& 0xFFFF)) * b := by
        rw [BitVec.shiftLeft_eq_mul_twoPow]
        generalize (a >>> 16) &&& 0xFFFF = high
        generalize a &&& 0xFFFF = low
        ring
    _ = a * b := by rw [halves_recombine]

/-- `BitFieldUExtract(a, offset, 16)` is `(a >> offset) & 0xFFFF`. -/
theorem uExtract_sixteen (a : BitVec 32) (offset : Nat) :
    BitVec.ofNat 32 (a.toNat / 2 ^ offset % 2 ^ 16) = (a >>> offset) &&& 0xFFFF := by
  apply BitVec.eq_of_toNat_eq
  simp [Nat.shiftRight_eq_div_pow, and_low_mask]
  omega

/-- The identity as the IR computes the two extracts. -/
theorem xmad_fields (a b : BitVec 32) :
    (BitVec.ofNat 32 (a.toNat / 2 ^ 16 % 2 ^ 16) * b) <<< 16 +
      BitVec.ofNat 32 (a.toNat / 2 ^ 0 % 2 ^ 16) * b = a * b := by
  have low : BitVec.ofNat 32 (a.toNat / 2 ^ 0 % 2 ^ 16) = a &&& 0xFFFF := by
    simpa using uExtract_sixteen a 0
  rw [uExtract_sixteen, low]
  exact xmad_halves a b

/-! ## What the matcher accepts -/

/-- The instructions `FoldXmadMultiply` walks from the add at `inst`, with what it checks of each:
the add's operands resolve to `shl` and `rhsMul`, `shl`'s first operand to `lhsMul`, and the
multiplies' first operands to `lhsBfe` and `rhsBfe`. -/
structure XmadMatch (p : Program) (inst : Nat) where
  /-- `ShiftLeftLogical32(lhs_mul, 16)`. -/
  shl : Nat
  /-- `IMul32(BitFieldUExtract(a, 16, 16), b)`. -/
  lhsMul : Nat
  /-- `IMul32(BitFieldUExtract(a, 0, 16), b)`. -/
  rhsMul : Nat
  /-- `BitFieldUExtract(a, 16, 16)`. -/
  lhsBfe : Nat
  /-- `BitFieldUExtract(a, 0, 16)`. -/
  rhsBfe : Nat
  shl_resolves : p.resolve ((p.insts inst).arg 0) = .ok (.inst shl)
  shl_op : (p.insts shl).op = .shiftLeftLogical32
  shl_amount : (p.insts shl).arg 1 = .imm (.u32 16)
  lhsMul_resolves : p.resolve ((p.insts shl).arg 0) = .ok (.inst lhsMul)
  lhsMul_op : (p.insts lhsMul).op = .iMul32
  rhsMul_resolves : p.resolve ((p.insts inst).arg 1) = .ok (.inst rhsMul)
  rhsMul_op : (p.insts rhsMul).op = .iMul32
  factorB_alike : p.ResolvesAlike ((p.insts lhsMul).arg 1) ((p.insts rhsMul).arg 1)
  lhsBfe_resolves : p.resolve ((p.insts lhsMul).arg 0) = .ok (.inst lhsBfe)
  rhsBfe_resolves : p.resolve ((p.insts rhsMul).arg 0) = .ok (.inst rhsBfe)
  lhsBfe_op : (p.insts lhsBfe).op = .bitFieldUExtract
  rhsBfe_op : (p.insts rhsBfe).op = .bitFieldUExtract
  lhsBfe_offset : (p.insts lhsBfe).arg 1 = .imm (.u32 16)
  lhsBfe_count : (p.insts lhsBfe).arg 2 = .imm (.u32 16)
  rhsBfe_offset : (p.insts rhsBfe).arg 1 = .imm (.u32 0)
  rhsBfe_count : (p.insts rhsBfe).arg 2 = .imm (.u32 16)
  factorA_alike : p.ResolvesAlike ((p.insts lhsBfe).arg 0) ((p.insts rhsBfe).arg 0)

namespace XmadMatch

variable {p : Program} {inst : Nat}

/-- `factor_a`, the first operand of the high extract. -/
def factorA (m : XmadMatch p inst) : Value := (p.insts m.lhsBfe).arg 0

/-- `factor_b`, the second operand of the high multiply. -/
def factorB (m : XmadMatch p inst) : Value := (p.insts m.lhsMul).arg 1

end XmadMatch

variable {p p' : Program} {block inst : Nat}

/-- When `FoldXmadMultiply` reports a match, the operands have the XMAD shape, and the program
is the one with `IMul32(factor_a, factor_b)` emitted before the add and the add an `Identity` of
it. -/
theorem foldXmadMultiply_eq_ok_true (matched : foldXmadMultiply p block inst = .ok (true, p')) :
    ∃ m : XmadMatch p inst, p' = (p.prependNewInst block inst .iMul32
      [m.factorA, m.factorB]).2.replaceUsesWith inst (.inst p.count) := by
  suffices ∀ r, foldXmadMultiply p block inst = .ok r → r.1 = true → ∃ m : XmadMatch p inst,
      r.2 = (p.prependNewInst block inst .iMul32 [m.factorA, m.factorB]).2.replaceUsesWith inst
        (.inst p.count) from this _ matched rfl
  unfold foldXmadMultiply
  refine forall_ok_bind fun _ => forall_ok_ite (forall_ok_pure nofun) ?_
  refine forall_ok_bind fun _ => forall_ok_ite (forall_ok_pure nofun) ?_
  refine forall_ok_bind_with fun shl shlRes => ?_
  refine forall_ok_ite_with (fun _ => forall_ok_pure nofun) fun isShl => ?_
  refine forall_ok_bind fun _ => forall_ok_ite (forall_ok_pure nofun) ?_
  refine forall_ok_bind_with fun lhsMul lhsMulRes => forall_ok_bind_with fun rhsMul rhsMulRes => ?_
  refine forall_ok_ite_with (fun _ => forall_ok_pure nofun) fun areMul => ?_
  refine forall_ok_bind_with fun b bLhs => forall_ok_bind_with fun b' bRhs => ?_
  refine forall_ok_ite_with (fun _ => forall_ok_pure nofun) fun sameB => ?_
  refine forall_ok_bind fun _ => forall_ok_ite (forall_ok_pure nofun) ?_
  refine forall_ok_bind fun _ => forall_ok_ite (forall_ok_pure nofun) ?_
  refine forall_ok_bind_with fun lhsBfe lhsBfeRes => forall_ok_bind_with fun rhsBfe rhsBfeRes => ?_
  refine forall_ok_ite_with (fun _ => forall_ok_pure nofun) fun lhsIsBfe => ?_
  refine forall_ok_ite_with (fun _ => forall_ok_pure nofun) fun rhsIsBfe => ?_
  refine forall_ok_ite_with (fun _ => forall_ok_pure nofun) fun lhsField => ?_
  refine forall_ok_ite_with (fun _ => forall_ok_pure nofun) fun rhsField => ?_
  refine forall_ok_bind_with fun a aLhs => forall_ok_bind_with fun a' aRhs => ?_
  refine forall_ok_ite_with (fun _ => forall_ok_pure nofun) fun sameA => ?_
  simp only [not_or, not_not, ne_eq] at isShl areMul lhsField rhsField
  simp only [not_not, ne_eq] at sameB sameA lhsIsBfe rhsIsBfe
  subst sameA sameB
  exact forall_ok_pure fun _ => ⟨⟨shl, lhsMul, rhsMul, lhsBfe, rhsBfe,
    Program.instRecursive_eq_ok.mp shlRes, isShl.1, isShl.2,
    Program.instRecursive_eq_ok.mp lhsMulRes, areMul.1,
    Program.instRecursive_eq_ok.mp rhsMulRes, areMul.2, ⟨b, bLhs, bRhs⟩,
    Program.instRecursive_eq_ok.mp lhsBfeRes, Program.instRecursive_eq_ok.mp rhsBfeRes,
    lhsIsBfe, rhsIsBfe, lhsField.1, lhsField.2, rhsField.1, rhsField.2, ⟨a, aLhs, aRhs⟩⟩, rfl⟩

/-- Every way `FoldXmadMultiply` declines returns the program unchanged. -/
theorem foldXmadMultiply_declined :
    ∀ result, foldXmadMultiply p block inst = .ok result → result.1 = false → result.2 = p := by
  unfold foldXmadMultiply
  repeat' first
    | refine forall_ok_ite ?_ ?_
    | refine forall_ok_bind fun _ => ?_
    | exact forall_ok_pure fun _ => rfl
    | exact forall_ok_pure nofun

/-! ## The product is the sum -/

/-- In every execution, an add of the accepted shape has the value `factor_a * factor_b`. -/
theorem XmadMatch.add_eq_mul {env : Env} {ρ : Nat → Datum} (m : XmadMatch p inst)
    (opcode : (p.insts inst).op = .iAdd32) (consistent : p.Consistent env ρ) :
    ρ inst = .scalar (.u32 ((m.factorA.denote ρ).u32 * (m.factorB.denote ρ).u32)) := by
  have high := consistent.eq_evalOp m.lhsBfe_op (by simp)
  have low := consistent.eq_evalOp m.rhsBfe_op (by simp)
  have highProduct := consistent.eq_evalOp m.lhsMul_op (by simp)
  have lowProduct := consistent.eq_evalOp m.rhsMul_op (by simp)
  have shifted := consistent.eq_evalOp m.shl_op (by simp)
  rw [consistent.eq_evalOp opcode (by simp)]
  simp only [evalOp, resolve_denote consistent m.shl_resolves,
    resolve_denote consistent m.rhsMul_resolves, resolve_denote consistent m.lhsMul_resolves,
    resolve_denote consistent m.lhsBfe_resolves, resolve_denote consistent m.rhsBfe_resolves,
    ← m.factorA_alike.denote_eq consistent, ← m.factorB_alike.denote_eq consistent,
    Value.denote_inst, Value.denote_imm, high, low, highProduct, lowProduct, shifted, m.shl_amount,
    m.lhsBfe_offset, m.lhsBfe_count, m.rhsBfe_offset, m.rhsBfe_count, Datum.u32_scalar]
  exact congrArg (fun product => Datum.scalar (.u32 product)) (xmad_fields _ _)

/-- `FoldXmadMultiply`, applied to an `IAdd32` and reporting a match, emits
`IMul32(factor_a, factor_b)` under the next handle and makes the add an `Identity` of it, and in
every execution the product has the add's value. -/
theorem foldXmadMultiply_product_eq_add (inArena : inst < p.count)
    (opcode : (p.insts inst).op = .iAdd32)
    (matched : foldXmadMultiply p block inst = .ok (true, p')) :
    ∃ m : XmadMatch p inst,
      p'.insts p.count = { op := .iMul32, args := [m.factorA, m.factorB] } ∧
      p'.insts inst = { p.insts inst with op := .identity, args := [.inst p.count] } ∧
      ∀ env ρ, p.Consistent env ρ → p'.eval env ρ p.count = ρ inst := by
  obtain ⟨m, rfl⟩ := foldXmadMultiply_eq_ok_true matched
  have product : ((p.prependNewInst block inst .iMul32 [m.factorA, m.factorB]).2.replaceUsesWith
      inst (.inst p.count)).insts p.count = { op := .iMul32, args := [m.factorA, m.factorB] } := by
    simp [Program.replaceUsesWith, Program.setInst, Program.prependNewInst, inArena.ne']
  refine ⟨m, product, by simp [Program.replaceUsesWith, Program.prependNewInst, inArena.ne],
    fun env ρ consistent => ?_⟩
  rw [Program.eval, product, m.add_eq_mul opcode consistent]
  rfl

/-- `a = R1`, `b = R2` and the XMAD sequence for `a * b`: `%2 = BitFieldUExtract %0, #16, #16`,
`%3 = IMul32 %2, %1`, `%4 = ShiftLeftLogical32 %3, #16`, `%5 = BitFieldUExtract %0, #0, #16`,
`%6 = IMul32 %5, %1`, `%7 = IAdd32 %4, %6`. -/
def xmadProduct : Program :=
  .ofInsts
    [{ op := .getRegister, args := [.imm (.reg ⟨1⟩)] },
     { op := .getRegister, args := [.imm (.reg ⟨2⟩)] },
     { op := .bitFieldUExtract, args := [.inst 0, .imm (.u32 16), .imm (.u32 16)] },
     { op := .iMul32, args := [.inst 2, .inst 1] },
     { op := .shiftLeftLogical32, args := [.inst 3, .imm (.u32 16)] },
     { op := .bitFieldUExtract, args := [.inst 0, .imm (.u32 0), .imm (.u32 16)] },
     { op := .iMul32, args := [.inst 5, .inst 1] },
     { op := .iAdd32, args := [.inst 4, .inst 6] }]

/-- What `FoldXmadMultiply` makes of `xmadProduct`: `%8 = IMul32 %0, %1` before the add, and the
add an `Identity` of `%8`. -/
def xmadProductFolded : Program :=
  (xmadProduct.prependNewInst 0 7 .iMul32 [.inst 0, .inst 1]).2.replaceUsesWith 7 (.inst 8)

theorem xmadProduct_folds_to_product :
    7 < xmadProduct.count ∧ (xmadProduct.insts 7).op = .iAdd32 ∧
      foldXmadMultiply xmadProduct 0 7 = .ok (true, xmadProductFolded) ∧
      ∃ m : XmadMatch xmadProduct 7,
        xmadProductFolded.insts xmadProduct.count =
            { op := .iMul32, args := [m.factorA, m.factorB] } ∧
          xmadProductFolded.insts 7 =
            { xmadProduct.insts 7 with op := .identity, args := [.inst xmadProduct.count] } ∧
          ∀ env ρ, xmadProduct.Consistent env ρ →
            xmadProductFolded.eval env ρ xmadProduct.count = ρ 7 :=
  ⟨by decide, rfl, rfl, foldXmadMultiply_product_eq_add (by decide) rfl rfl⟩

end Shader.Optimization

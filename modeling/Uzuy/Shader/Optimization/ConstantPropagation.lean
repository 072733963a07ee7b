import Uzuy.Shader.IR.Program

/-!
# The constant-propagation pass

`shader_recompiler/ir_opt/constant_propagation_pass.cpp`, one definition per function of the
source. A fold takes the program and the handle of the visited instruction and returns the
rewritten program, or the exception the C++ throws; an early `return` of the C++ is an
`if … then pure p else`. A C++ shift of a 32-bit value by 32 or more is undefined; the x86-64
and AArch64 shift instructions the code runs on take the count modulo 32, and so do `shl32`,
`lshr32` and `ashr32`.
-/

namespace Shader.Optimization

open Shader.IR

/-- C++ `x << count` on a 32-bit operand, as the hardware computes it. -/
def shl32 (x : BitVec 32) (count : Nat) : BitVec 32 := x <<< (count % 32)

/-- C++ `x >> count` on an unsigned 32-bit operand, as the hardware computes it. -/
def lshr32 (x : BitVec 32) (count : Nat) : BitVec 32 := x >>> (count % 32)

/-- C++ `x >> count` on a signed 32-bit operand (arithmetic), as the hardware computes it. -/
def ashr32 (x : BitVec 32) (count : Nat) : BitVec 32 := x.sshiftRight (count % 32)

/-- An operand type `T` of `FoldCommutative<T>`: `arg` is `Arg<T>` and `value` is `IR::Value{T}`. -/
structure ArgType (T : Type) where
  /-- `Arg<T>`, reading an immediate of type `T` through `Identity` chains. -/
  arg : Program → Value → Except Exception T
  /-- `IR::Value{T}`. -/
  value : T → Imm

/-- `Arg<u32>`. -/
def ArgType.u32 : ArgType (BitVec 32) := ⟨Program.u32, .u32⟩

/-- `Arg<u64>`. -/
def ArgType.u64 : ArgType (BitVec 64) := ⟨Program.u64, .u64⟩

/-- `Arg<bool>`. -/
def ArgType.bool : ArgType Bool := ⟨Program.u1, .u1⟩

/-- `FoldCommutative<T>`; the `Bool` is `false` when the instruction was folded to an immediate. -/
def foldCommutative {T : Type} (type : ArgType T) (p : Program) (inst : Nat)
    (immFn : T → T → T) : Except Exception (Bool × Program) := do
  let lhs := (p.insts inst).arg 0
  let rhs := (p.insts inst).arg 1
  let isLhsImmediate ← p.isImmediate lhs
  let isRhsImmediate ← p.isImmediate rhs
  if isLhsImmediate && isRhsImmediate then
    let result := immFn (← type.arg p lhs) (← type.arg p rhs)
    pure (false, p.replaceUsesWith inst (.imm (type.value result)))
  else if isLhsImmediate && !isRhsImmediate then
    let rhsInst ← p.instRecursive rhs
    let mergeable ← if (p.insts rhsInst).op = (p.insts inst).op then
      p.isImmediate ((p.insts rhsInst).arg 1) else pure false
    if mergeable then
      let combined := immFn (← type.arg p lhs) (← type.arg p ((p.insts rhsInst).arg 1))
      pure (true, (p.setArg inst 0 ((p.insts rhsInst).arg 0)).setArg inst 1
        (.imm (type.value combined)))
    else
      pure (true, (p.setArg inst 0 rhs).setArg inst 1 lhs)
  else if !isLhsImmediate && isRhsImmediate then
    let lhsInst ← p.instRecursive lhs
    let mergeable ← if (p.insts lhsInst).op = (p.insts inst).op then
      p.isImmediate ((p.insts lhsInst).arg 1) else pure false
    if mergeable then
      let combined := immFn (← type.arg p rhs) (← type.arg p ((p.insts lhsInst).arg 1))
      pure (true, (p.setArg inst 0 ((p.insts lhsInst).arg 0)).setArg inst 1
        (.imm (type.value combined)))
    else
      pure (true, p)
  else
    pure (true, p)

/-- `FoldWhenAllImmediates`: `func` is the folding lambda together with `EvalImmediates`, reading
the arguments it takes through `Arg<T>`. The `Bool` is whether the instruction was folded. -/
def foldWhenAllImmediates (p : Program) (inst : Nat)
    (func : Program → (Nat → Value) → Except Exception Imm) : Except Exception (Bool × Program) := do
  if !(← (p.insts inst).args.allM p.isImmediate) || (p.insts inst).pseudo then pure (false, p) else
  pure (true, p.replaceUsesWith inst (.imm (← func p (p.insts inst).arg)))

/-- `FoldGetRegister`. -/
def foldGetRegister (p : Program) (inst : Nat) : Except Exception Program := do
  if (← p.reg ((p.insts inst).arg 0)) = Reg.RZ then
    pure (p.replaceUsesWith inst (.imm (.u32 0)))
  else pure p

/-- `FoldGetPred`. -/
def foldGetPred (p : Program) (inst : Nat) : Except Exception Program := do
  if (← p.pred ((p.insts inst).arg 0)) = Pred.PT then
    pure (p.replaceUsesWith inst (.imm (.u1 true)))
  else pure p

/-- `FoldXmadMultiply`: replaces the add of two XMAD half products by one `IMul32`, emitted
right before the add. The `Bool` is whether the pattern matched. -/
def foldXmadMultiply (p : Program) (block inst : Nat) : Except Exception (Bool × Program) := do
  let lhsArg := (p.insts inst).arg 0
  let rhsArg := (p.insts inst).arg 1
  if ← p.isImmediate lhsArg then pure (false, p) else
  if ← p.isImmediate rhsArg then pure (false, p) else
  let lhsShl ← p.instRecursive lhsArg
  if (p.insts lhsShl).op ≠ .shiftLeftLogical32 ∨ (p.insts lhsShl).arg 1 ≠ .imm (.u32 16) then
    pure (false, p) else
  if ← p.isImmediate ((p.insts lhsShl).arg 0) then pure (false, p) else
  let lhsMul ← p.instRecursive ((p.insts lhsShl).arg 0)
  let rhsMul ← p.instRecursive rhsArg
  if (p.insts lhsMul).op ≠ .iMul32 ∨ (p.insts rhsMul).op ≠ .iMul32 then pure (false, p) else
  if (← p.resolve ((p.insts lhsMul).arg 1)) ≠ (← p.resolve ((p.insts rhsMul).arg 1)) then
    pure (false, p) else
  let factorB := (p.insts lhsMul).arg 1
  if ← p.isImmediate ((p.insts lhsMul).arg 0) then pure (false, p) else
  if ← p.isImmediate ((p.insts rhsMul).arg 0) then pure (false, p) else
  let lhsBfe ← p.instRecursive ((p.insts lhsMul).arg 0)
  let rhsBfe ← p.instRecursive ((p.insts rhsMul).arg 0)
  if (p.insts lhsBfe).op ≠ .bitFieldUExtract then pure (false, p) else
  if (p.insts rhsBfe).op ≠ .bitFieldUExtract then pure (false, p) else
  if (p.insts lhsBfe).arg 1 ≠ .imm (.u32 16) ∨ (p.insts lhsBfe).arg 2 ≠ .imm (.u32 16) then
    pure (false, p) else
  if (p.insts rhsBfe).arg 1 ≠ .imm (.u32 0) ∨ (p.insts rhsBfe).arg 2 ≠ .imm (.u32 16) then
    pure (false, p) else
  if (← p.resolve ((p.insts lhsBfe).arg 0)) ≠ (← p.resolve ((p.insts rhsBfe).arg 0)) then
    pure (false, p) else
  let factorA := (p.insts lhsBfe).arg 0
  let (product, p) := p.prependNewInst block inst .iMul32 [factorA, factorB]
  pure (true, p.replaceUsesWith inst (.inst product))

/-- `FoldAdd<T>`; `isU32` is `std::is_same_v<T, u32>`, under which the XMAD idiom is tried. -/
def foldAdd {T : Type} [Add T] [OfNat T 0] [DecidableEq T] (type : ArgType T) (isU32 : Bool)
    (p : Program) (block inst : Nat) : Except Exception Program := do
  if (p.insts inst).pseudo then pure p else
  let (notFolded, p) ← foldCommutative type p inst (· + ·)
  if !notFolded then pure p else
  let rhs := (p.insts inst).arg 1
  let isZero ← if ← p.isImmediate rhs then (fun a => decide (a = 0)) <$> type.arg p rhs
    else pure false
  if isZero then pure (p.replaceUsesWith inst ((p.insts inst).arg 0)) else
  if isU32 then Prod.snd <$> foldXmadMultiply p block inst else
  pure p

/-- The `equal_cbuf` lambda of `FoldISub32`. -/
def equalCbuf (p : Program) (a b : Nat) : Bool :=
  (p.insts a).op = .getCbufU32 && (p.insts b).op = .getCbufU32 &&
    (p.insts a).arg 0 = (p.insts b).arg 0 && (p.insts a).arg 1 = (p.insts b).arg 1

/-- `FoldISub32`. -/
def foldISub32 (p : Program) (inst : Nat) : Except Exception Program := do
  let (folded, p) ← foldWhenAllImmediates p inst fun p arg => do
    pure (.u32 ((← p.u32 (arg 0)) - (← p.u32 (arg 1))))
  if folded then pure p else
  if ← p.isImmediate ((p.insts inst).arg 0) then pure p else
  if ← p.isImmediate ((p.insts inst).arg 1) then pure p else
  let opA ← p.instRecursive ((p.insts inst).arg 0)
  let opB ← p.instRecursive ((p.insts inst).arg 1)
  if equalCbuf p opA opB then pure (p.replaceUsesWith inst (.imm (.u32 0))) else
  -- "Canonicalize local variables to simplify the following logic"
  let (opA, opB) := if (p.insts opB).op = .iAdd32 then (opB, opA) else (opA, opB)
  if (p.insts opB).op ≠ .getCbufU32 then pure p else
  let instCbuf := opB
  if (p.insts opA).op ≠ .iAdd32 then pure p else
  let addOpA := (p.insts opA).arg 0
  let addOpB := (p.insts opA).arg 1
  let (addOpA, addOpB) ←
    if ← p.isImmediate addOpB then pure (addOpB, addOpA) else pure (addOpA, addOpB)
  if ← p.isImmediate addOpB then pure p else
  let addCbuf ← p.instRecursive addOpB
  if equalCbuf p addCbuf instCbuf then pure (p.replaceUsesWith inst addOpA) else
  pure p

/-- `FoldSelect`. -/
def foldSelect (p : Program) (inst : Nat) : Except Exception Program := do
  let cond := (p.insts inst).arg 0
  if ← p.isImmediate cond then
    pure (p.replaceUsesWith inst
      (if ← p.u1 cond then (p.insts inst).arg 1 else (p.insts inst).arg 2))
  else pure p

/-- `FoldFPMul32`. -/
def foldFPMul32 (p : Program) (inst : Nat) : Except Exception Program := do
  if (p.insts inst).noContraction then pure p else
  let lhsValue := (p.insts inst).arg 0
  let rhsValue := (p.insts inst).arg 1
  if ← p.isImmediate lhsValue then pure p else
  if ← p.isImmediate rhsValue then pure p else
  let lhsOp ← p.instRecursive lhsValue
  let rhsOp ← p.instRecursive rhsValue
  if (p.insts lhsOp).op ≠ .fpMul32 ∨ (p.insts rhsOp).op ≠ .fpRecip32 then pure p else
  let recipSource := (p.insts rhsOp).arg 0
  let lhsMulSource ← p.resolve ((p.insts lhsOp).arg 1)
  if ← p.isImmediate recipSource then pure p else
  if ← p.isImmediate lhsMulSource then pure p else
  let attrA ← p.instRecursive recipSource
  let attrB ← p.instRecursive lhsMulSource
  if (p.insts attrA).op ≠ .getAttribute ∨ (p.insts attrB).op ≠ .getAttribute then pure p else
  if (← p.attr ((p.insts attrA).arg 0)) = (← p.attr ((p.insts attrB).arg 0)) then
    pure (p.replaceUsesWith inst ((p.insts lhsOp).arg 0))
  else pure p

/-- `FoldLogicalAnd`. -/
def foldLogicalAnd (p : Program) (inst : Nat) : Except Exception Program := do
  let (notFolded, p) ← foldCommutative .bool p inst (· && ·)
  if !notFolded then pure p else
  let rhs := (p.insts inst).arg 1
  if ← p.isImmediate rhs then
    if ← p.u1 rhs then pure (p.replaceUsesWith inst ((p.insts inst).arg 0))
    else pure (p.replaceUsesWith inst (.imm (.u1 false)))
  else pure p

/-- `FoldLogicalOr`. -/
def foldLogicalOr (p : Program) (inst : Nat) : Except Exception Program := do
  let (notFolded, p) ← foldCommutative .bool p inst (· || ·)
  if !notFolded then pure p else
  let rhs := (p.insts inst).arg 1
  if ← p.isImmediate rhs then
    if ← p.u1 rhs then pure (p.replaceUsesWith inst (.imm (.u1 true)))
    else pure (p.replaceUsesWith inst ((p.insts inst).arg 0))
  else pure p

/-- `FoldLogicalNot`. -/
def foldLogicalNot (p : Program) (inst : Nat) : Except Exception Program := do
  let value := (p.insts inst).arg 0
  if ← p.isImmediate value then pure (p.replaceUsesWith inst (.imm (.u1 !(← p.u1 value)))) else
  let arg ← p.instRecursive value
  if (p.insts arg).op = .logicalNot then pure (p.replaceUsesWith inst ((p.insts arg).arg 0))
  else pure p

/-- `FoldBitCast<op, Dest, Source>`; `bitCast` is `Common::BitCast<Dest>(Arg<Source>(value))`. -/
def foldBitCast (op : Opcode) (bitCast : Program → Value → Except Exception Imm) (p : Program)
    (inst : Nat) (reverse : Opcode) : Except Exception Program := do
  let value := (p.insts inst).arg 0
  if ← p.isImmediate value then pure (p.replaceUsesWith inst (.imm (← bitCast p value))) else
  let argInst ← p.instRecursive value
  if (p.insts argInst).op = reverse then pure (p.replaceUsesWith inst ((p.insts argInst).arg 0))
  else if op = .bitCastF32U32 ∧ (p.insts argInst).op = .getCbufU32 then
    -- "Replace the bitcast with a typed constant buffer read"
    let p := p.replaceOpcode inst .getCbufF32
    let p := p.setArg inst 0 ((p.insts argInst).arg 0)
    pure (p.setArg inst 1 ((p.insts argInst).arg 1))
  else pure p

/-- `FoldInverseFunc`. -/
def foldInverseFunc (p : Program) (inst : Nat) (reverse : Opcode) : Except Exception Program := do
  let value := (p.insts inst).arg 0
  if ← p.isImmediate value then pure p else
  let argInst ← p.instRecursive value
  if (p.insts argInst).op = reverse then pure (p.replaceUsesWith inst ((p.insts argInst).arg 0))
  else pure p

/-- `FoldBranchConditional`. -/
def foldBranchConditional (p : Program) (inst : Nat) : Except Exception Program := do
  let cond := (p.insts inst).arg 0
  if ← p.isImmediate cond then pure p else
  let condInst ← p.instRecursive cond
  if (p.insts condInst).op = .logicalNot then
    let trueLabel := (p.insts inst).arg 1
    let falseLabel := (p.insts inst).arg 2
    -- "Remove negation on the conditional ... and swap the branches"
    let p := p.setArg inst 0 ((p.insts condInst).arg 0)
    let p := p.setArg inst 1 falseLabel
    pure (p.setArg inst 2 trueLabel)
  else pure p

/-- `FoldCompositeExtractImpl`, recursing at most `fuel` times. -/
def foldCompositeExtractImplWith (p : Program) (insert construct : Opcode)
    (firstIndex : BitVec 32) : Nat → Value → Except Exception (Option Value)
  | fuel, instValue => do
    let inst ← p.instRecursive instValue
    if (p.insts inst).op = construct then pure (some ((p.insts inst).arg firstIndex.toNat)) else
    if (p.insts inst).op ≠ insert then pure none else
    let valueIndex := (p.insts inst).arg 2
    if !(← p.isImmediate valueIndex) then pure none else
    let secondIndex ← p.u32 valueIndex
    if firstIndex ≠ secondIndex then
      let valueComposite := (p.insts inst).arg 0
      if ← p.isImmediate valueComposite then pure none else
      match fuel with
      | 0 => throw .diverges
      | fuel + 1 => foldCompositeExtractImplWith p insert construct firstIndex fuel valueComposite
    else pure (some ((p.insts inst).arg 1))

/-- `FoldCompositeExtractImpl`. Each call moves to an instruction of the arena, so an acyclic
chain makes fewer calls than there are instructions. -/
def foldCompositeExtractImpl (p : Program) (instValue : Value) (insert construct : Opcode)
    (firstIndex : BitVec 32) : Except Exception (Option Value) :=
  foldCompositeExtractImplWith p insert construct firstIndex p.count instValue

/-- `FoldCompositeExtract`. -/
def foldCompositeExtract (p : Program) (inst : Nat) (construct insert : Opcode) :
    Except Exception Program := do
  let value1 := (p.insts inst).arg 0
  let value2 := (p.insts inst).arg 1
  if ← p.isImmediate value1 then pure p else
  if !(← p.isImmediate value2) then pure p else
  let firstIndex ← p.u32 value2
  match ← foldCompositeExtractImpl p value1 insert construct firstIndex with
  | none => pure p
  | some result => pure (p.replaceUsesWith inst result)

/-- The `BitFieldUExtract` lambda of `ConstantPropagation`. -/
def bitFieldUExtractImm (base shift count : BitVec 32) : Except Exception (BitVec 32) :=
  if shift.toNat + count.toNat > 32 then
    .error (.undefinedResult .bitFieldUExtract base.toNat shift.toNat count.toNat)
  else
    .ok (lshr32 base shift.toNat &&& (shl32 1 count.toNat - 1))

/-- The `BitFieldSExtract` lambda of `ConstantPropagation`; `base` holds the bits of the `s32`. -/
def bitFieldSExtractImm (base shift count : BitVec 32) : Except Exception (BitVec 32) :=
  let backShift := shift.toNat + count.toNat
  if backShift > 32 then
    .error (.undefinedResult .bitFieldSExtract base.toInt shift.toNat count.toNat)
  else
    let leftShift := 32 - backShift
    .ok (ashr32 (shl32 base leftShift) (32 - count.toNat))

/-- A case `FoldWhenAllImmediates(inst, [](T a, T b) { return a OP b; })` of
`ConstantPropagation` with two 32-bit arguments (`Arg<s32>` reads the bits `Arg<u32>` reads). -/
def foldBinary32 (p : Program) (inst : Nat) (fn : BitVec 32 → BitVec 32 → Imm) :
    Except Exception Program :=
  Prod.snd <$> foldWhenAllImmediates p inst fun p arg => do
    pure (fn (← p.u32 (arg 0)) (← p.u32 (arg 1)))

/-- A case `FoldWhenAllImmediates(inst, [](T base, u32 shift, u32 count) {...})` of
`ConstantPropagation`, the bit-field extracts. -/
def foldBitField (p : Program) (inst : Nat)
    (fn : BitVec 32 → BitVec 32 → BitVec 32 → Except Exception (BitVec 32)) :
    Except Exception Program :=
  Prod.snd <$> foldWhenAllImmediates p inst fun p arg => do
    pure (.u32 (← fn (← p.u32 (arg 0)) (← p.u32 (arg 1)) (← p.u32 (arg 2))))

/-- `ConstantPropagation`, the dispatcher: at most one fold per instruction. -/
def constantPropagation (p : Program) (block inst : Nat) : Except Exception Program :=
  match (p.insts inst).op with
  | .getRegister => foldGetRegister p inst
  | .getPred => foldGetPred p inst
  | .iAdd32 => foldAdd .u32 true p block inst
  | .iSub32 => foldISub32 p inst
  | .bitCastF32U32 =>
      foldBitCast .bitCastF32U32 (fun p value => .f32 <$> p.u32 value) p inst .bitCastU32F32
  | .bitCastU32F32 =>
      foldBitCast .bitCastU32F32 (fun p value => .u32 <$> p.f32 value) p inst .bitCastF32U32
  | .iAdd64 => foldAdd .u64 false p block inst
  | .packHalf2x16 => foldInverseFunc p inst .unpackHalf2x16
  | .unpackHalf2x16 => foldInverseFunc p inst .packHalf2x16
  | .select _ => foldSelect p inst
  | .fpMul32 => foldFPMul32 p inst
  | .logicalAnd => foldLogicalAnd p inst
  | .logicalOr => foldLogicalOr p inst
  | .logicalNot => foldLogicalNot p inst
  | .sLessThan => foldBinary32 p inst fun a b => .u1 (a.slt b)
  | .uLessThan => foldBinary32 p inst fun a b => .u1 (a.ult b)
  | .sLessThanEqual => foldBinary32 p inst fun a b => .u1 (a.sle b)
  | .uLessThanEqual => foldBinary32 p inst fun a b => .u1 (a.ule b)
  | .sGreaterThan => foldBinary32 p inst fun a b => .u1 (b.slt a)
  | .uGreaterThan => foldBinary32 p inst fun a b => .u1 (b.ult a)
  | .sGreaterThanEqual => foldBinary32 p inst fun a b => .u1 (b.sle a)
  | .uGreaterThanEqual => foldBinary32 p inst fun a b => .u1 (b.ule a)
  | .iEqual => foldBinary32 p inst fun a b => .u1 (a == b)
  | .iNotEqual => foldBinary32 p inst fun a b => .u1 (a != b)
  | .bitFieldUExtract => foldBitField p inst bitFieldUExtractImm
  | .bitFieldSExtract => foldBitField p inst bitFieldSExtractImm
  | .branchConditional => foldBranchConditional p inst
  | .compositeExtract type =>
      foldCompositeExtract p inst (.compositeConstruct type) (.compositeInsert type)
  | _ => pure p

/-- `ConstantPropagationPass`: blocks in reverse post-order, each block's instructions in
program order. The instructions of a block are those it has when its loop starts: the only
instruction a fold adds is placed before the visited one, where the C++ iterator never goes. -/
def constantPropagationPass (p : Program) : Except Exception Program :=
  p.postOrderBlocks.reverse.foldlM
    (fun p block => (p.blocks block).foldlM (fun p inst => constantPropagation p block inst) p) p

end Shader.Optimization

import Uzuy.Shader.Optimization.Xmad
import Uzuy.Shader.IR.Rewrite

/-!
# Folding commutative operations

`FoldCommutative<T>` folds two immediates, merges `c1 op (x op c2)` into `x op (c1 op c2)` from
either side, or moves an immediate to the right. `FoldAdd` then drops `x + 0` and tries the XMAD
idiom; `FoldLogicalAnd` and `FoldLogicalOr` apply the identity and absorption rules. Each outcome
keeps every execution: the rewritten instruction's equation holds under the valuation it held
before, since the operation is commutative and associative, and the operand kept by an identity
rule already has the result's type.
-/

namespace Shader.Optimization

open Shader.IR

/-! ## What `FoldCommutative` can do -/

section Step

variable {T : Type} (type : ArgType T) (immFn : T → T → T) (p : Program) (inst : Nat)

/-- The outcomes of `FoldCommutative<T>` on the instruction `inst`, each with the checks the code
made to reach it. -/
inductive CommutativeStep : Bool × Program → Prop
  /-- Both operands are immediates: the instruction becomes an `Identity` of `imm_fn(a, b)`. -/
  | folded {a b : T} (lhs_reads : type.arg p ((p.insts inst).arg 0) = .ok a)
      (rhs_reads : type.arg p ((p.insts inst).arg 1) = .ok b) :
      CommutativeStep (false, p.replaceUsesWith inst (.imm (type.value (immFn a b))))
  /-- One operand is the immediate `a`, the other resolves to a `producer` of the same opcode
  whose second operand is the immediate `c`: the operands become the producer's first operand
  and `imm_fn(a, c)`. -/
  | merged {constant other : Value} {producer : Nat} {a c : T}
      (sides : constant = (p.insts inst).arg 0 ∧ other = (p.insts inst).arg 1 ∨
        constant = (p.insts inst).arg 1 ∧ other = (p.insts inst).arg 0)
      (constant_reads : type.arg p constant = .ok a)
      (other_resolves : p.resolve other = .ok (.inst producer))
      (same_op : (p.insts producer).op = (p.insts inst).op)
      (producer_reads : type.arg p ((p.insts producer).arg 1) = .ok c) :
      CommutativeStep (true, (p.setArg inst 0 ((p.insts producer).arg 0)).setArg inst 1
        (.imm (type.value (immFn a c))))
  /-- Only the first operand is an immediate: the operands are swapped. -/
  | swapped {imm : Imm} {producer : Nat}
      (lhs_resolves : p.resolve ((p.insts inst).arg 0) = .ok (.imm imm))
      (rhs_resolves : p.resolve ((p.insts inst).arg 1) = .ok (.inst producer)) :
      CommutativeStep (true, (p.setArg inst 0 ((p.insts inst).arg 1)).setArg inst 1
        ((p.insts inst).arg 0))
  /-- The first operand is not an immediate and nothing was merged: the program is unchanged. -/
  | kept {producer : Nat} (lhs_resolves : p.resolve ((p.insts inst).arg 0) = .ok (.inst producer)) :
      CommutativeStep (true, p)

variable {type immFn p inst}

theorem foldCommutative_step {result : Bool × Program}
    (folded : foldCommutative type p inst immFn = .ok result) :
    CommutativeStep type immFn p inst result := by
  simp only [foldCommutative, bind_eq_ok] at folded
  obtain ⟨isLhs, lhs_imm, isRhs, rhs_imm, folded⟩ := folded
  cases isLhs <;> cases isRhs <;> simp only [Bool.and_true, Bool.and_false, Bool.not_true,
    Bool.not_false, Bool.false_eq_true, Bool.true_and, if_true, if_false, bind_eq_ok,
    pure_eq_ok] at folded
  case false.false =>
    obtain ⟨producer, resolves⟩ := Program.isImmediate_eq_ok_false.mp lhs_imm
    exact folded ▸ .kept resolves
  case false.true =>
    obtain ⟨lhsInst, lhs_inst, folded⟩ := folded
    rw [Program.instRecursive_eq_ok] at lhs_inst
    split at folded
    case isTrue same_op =>
      obtain ⟨mergeable, -, folded⟩ := bind_eq_ok.mp folded
      cases mergeable <;> simp only [Bool.false_eq_true, if_true, if_false, bind_eq_ok,
        pure_eq_ok] at folded
      · exact folded ▸ .kept lhs_inst
      · obtain ⟨a, a_reads, c, c_reads, rfl⟩ := folded
        exact .merged (.inr ⟨rfl, rfl⟩) a_reads lhs_inst same_op c_reads
    case isFalse =>
      simp only [bind_eq_ok, pure_eq_ok, exists_eq_left', Bool.false_eq_true, if_false] at folded
      exact folded ▸ .kept lhs_inst
  case true.false =>
    obtain ⟨imm, lhs_resolves⟩ := Program.isImmediate_eq_ok_true.mp lhs_imm
    obtain ⟨rhsInst, rhs_inst, folded⟩ := folded
    rw [Program.instRecursive_eq_ok] at rhs_inst
    split at folded
    case isTrue same_op =>
      obtain ⟨mergeable, -, folded⟩ := bind_eq_ok.mp folded
      cases mergeable <;> simp only [Bool.false_eq_true, if_true, if_false, bind_eq_ok,
        pure_eq_ok] at folded
      · exact folded ▸ .swapped lhs_resolves rhs_inst
      · obtain ⟨a, a_reads, c, c_reads, rfl⟩ := folded
        exact .merged (.inl ⟨rfl, rfl⟩) a_reads rhs_inst same_op c_reads
    case isFalse =>
      simp only [bind_eq_ok, pure_eq_ok, exists_eq_left', Bool.false_eq_true, if_false] at folded
      exact folded ▸ .swapped lhs_resolves rhs_inst
  case true.true =>
    obtain ⟨a, a_reads, b, b_reads, rfl⟩ := folded
    exact .folded a_reads b_reads

end Step

/-! ## The folded opcodes -/

/-- What the soundness of `FoldCommutative<T>` needs of an opcode it folds: `type` and `immFn` are
what the code passes it, `read` is how the opcode's semantics reads an operand of type `ty`, and
`immFn` computes the opcode and is commutative and associative. -/
structure CommutativeOp (T : Type) where
  /-- The opcode. -/
  op : Opcode
  /-- `Arg<T>` and `IR::Value{T}`. -/
  type : ArgType T
  /-- The type of the operands and of the result. -/
  ty : Ty
  /-- The operation on immediates. -/
  immFn : T → T → T
  /-- An operand's value as the opcode reads it. -/
  read : Datum → T
  argTypes_eq : op.argTypes = [ty, ty]
  resultType_eq : op.resultType = ty
  evalOp_eq : ∀ env arg,
    evalOp env op arg = .scalar (type.value (immFn (read (arg 0)) (read (arg 1))))
  arg_eq_ok : ∀ {p : Program} {value : Value} {a : T},
    type.arg p value = .ok a ↔ p.resolve value = .ok (.imm (type.value a))
  value_type : ∀ a, (type.value a).type = ty
  read_value : ∀ a, read (.scalar (type.value a)) = a
  eq_of_hasType : ∀ {datum : Datum}, datum.HasType ty → datum = .scalar (type.value (read datum))
  comm : ∀ a b, immFn a b = immFn b a
  assoc : ∀ a b c, immFn (immFn a b) c = immFn a (immFn b c)

namespace CommutativeOp

/-- `IAdd32`, folded by `FoldAdd<u32>`. -/
def iAdd32 : CommutativeOp (BitVec 32) where
  op := .iAdd32
  type := .u32
  ty := .u32
  immFn := (· + ·)
  read := Datum.u32
  argTypes_eq := rfl
  resultType_eq := rfl
  evalOp_eq _ _ := rfl
  arg_eq_ok := Program.u32_eq_ok
  value_type _ := rfl
  read_value _ := rfl
  eq_of_hasType := Datum.eq_of_hasType_u32
  comm := BitVec.add_comm
  assoc := BitVec.add_assoc

/-- `IAdd64`, folded by `FoldAdd<u64>`. -/
def iAdd64 : CommutativeOp (BitVec 64) where
  op := .iAdd64
  type := .u64
  ty := .u64
  immFn := (· + ·)
  read := Datum.u64
  argTypes_eq := rfl
  resultType_eq := rfl
  evalOp_eq _ _ := rfl
  arg_eq_ok := Program.u64_eq_ok
  value_type _ := rfl
  read_value _ := rfl
  eq_of_hasType := Datum.eq_of_hasType_u64
  comm := BitVec.add_comm
  assoc := BitVec.add_assoc

/-- `LogicalAnd`, folded by `FoldLogicalAnd`. -/
def logicalAnd : CommutativeOp Bool where
  op := .logicalAnd
  type := .bool
  ty := .u1
  immFn := (· && ·)
  read := Datum.u1
  argTypes_eq := rfl
  resultType_eq := rfl
  evalOp_eq _ _ := rfl
  arg_eq_ok := Program.u1_eq_ok
  value_type _ := rfl
  read_value _ := rfl
  eq_of_hasType := Datum.eq_of_hasType_u1
  comm := Bool.and_comm
  assoc := Bool.and_assoc

/-- `LogicalOr`, folded by `FoldLogicalOr`. -/
def logicalOr : CommutativeOp Bool where
  op := .logicalOr
  type := .bool
  ty := .u1
  immFn := (· || ·)
  read := Datum.u1
  argTypes_eq := rfl
  resultType_eq := rfl
  evalOp_eq _ _ := rfl
  arg_eq_ok := Program.u1_eq_ok
  value_type _ := rfl
  read_value _ := rfl
  eq_of_hasType := Datum.eq_of_hasType_u1
  comm := Bool.or_comm
  assoc := Bool.or_assoc

variable {T : Type} (F : CommutativeOp T)

theorem ne_identity : F.op ≠ .identity := fun identity =>
  nomatch (identity ▸ F.argTypes_eq : Opcode.argTypes .identity = [F.ty, F.ty])

theorem ne_phi (type : Ty) : F.op ≠ .phi type := fun phi =>
  nomatch (phi ▸ F.argTypes_eq : Opcode.argTypes (.phi type) = [F.ty, F.ty])

variable {F} {p : Program} {inst : Nat}

/-- A typed instruction of the opcode has two operands of type `ty`, and a result of that type. -/
theorem operands {Γ : Nat → Ty} (typed : p.TypedAt Γ inst) (opcode : (p.insts inst).op = F.op) :
    Γ inst = F.ty ∧ (p.insts inst).args =
      [(p.insts inst).arg 0, (p.insts inst).arg 1] ∧
      ((p.insts inst).arg 0).typeIn Γ = F.ty ∧ ((p.insts inst).arg 1).typeIn Γ = F.ty := by
  rw [Program.typedAt_iff (opcode ▸ F.ne_identity) (opcode ▸ F.ne_phi), opcode, F.resultType_eq,
    F.argTypes_eq] at typed
  obtain ⟨result, typing⟩ := typed
  obtain ⟨a, rest, args_eq, a_type, typing⟩ := List.map_eq_cons_iff.mp typing
  obtain ⟨b, _, rfl, b_type, nil⟩ := List.map_eq_cons_iff.mp typing
  rw [List.map_eq_nil_iff] at nil
  subst nil
  simp [Inst.arg, args_eq, result, a_type, b_type]

section Execution

variable {env : Env} {ρ : Nat → Datum}

/-- In an execution, an instruction of the opcode has `immFn` of its operands' values. -/
theorem value (consistent : p.Consistent env ρ) (opcode : (p.insts inst).op = F.op) :
    ρ inst = .scalar (F.type.value (F.immFn (F.read (((p.insts inst).arg 0).denote ρ))
      (F.read (((p.insts inst).arg 1).denote ρ)))) := by
  rw [consistent.eq_evalOp opcode F.ne_phi, F.evalOp_eq]

/-- An operand that reads as the immediate `a` has the value `a`. -/
theorem read_of_arg (consistent : p.Consistent env ρ) {value : Value} {a : T}
    (reads : F.type.arg p value = .ok a) : F.read (value.denote ρ) = a := by
  rw [resolve_denote consistent (F.arg_eq_ok.mp reads), Value.denote_imm, F.read_value]

/-- Giving the instruction operands whose `immFn` is the old one keeps an execution. -/
theorem consistent_setOperands (consistent : p.Consistent env ρ)
    (opcode : (p.insts inst).op = F.op) {x y : Value}
    (same : F.immFn (F.read (x.denote ρ)) (F.read (y.denote ρ)) =
      F.immFn (F.read (((p.insts inst).arg 0).denote ρ)) (F.read (((p.insts inst).arg 1).denote ρ))) :
    (p.setInst inst { p.insts inst with args := [x, y] }).Consistent env ρ := by
  refine consistent.setInst ((Program.satisfies_iff (by simp [opcode, F.ne_phi])).mpr ?_)
  rw [Program.eval, Program.setInst_insts_self, opcode, F.evalOp_eq, value consistent opcode]
  simp [Inst.arg, same]

theorem left_comm (a b c : T) : F.immFn a (F.immFn b c) = F.immFn b (F.immFn a c) := by
  rw [← F.assoc, F.comm a b, F.assoc]

/-- An absorption rule: when the second operand reads as an absorbing element, so does the
instruction. -/
theorem consistent_replace_absorbing (F : CommutativeOp T) (consistent : p.Consistent env ρ)
    (opcode : (p.insts inst).op = F.op) {z : T} (absorbing : ∀ a, F.immFn a z = z)
    (reads : F.type.arg p ((p.insts inst).arg 1) = .ok z) :
    (p.replaceUsesWith inst (.imm (F.type.value z))).Consistent env ρ := by
  refine consistent.replaceUsesWith ?_
  rw [value consistent opcode, read_of_arg consistent reads, absorbing, Value.denote_imm]

end Execution

variable {Γ : Nat → Ty}

theorem wellTyped_setOperands (typed : p.WellTyped Γ) (opcode : (p.insts inst).op = F.op)
    {x y : Value} (x_type : x.typeIn Γ = F.ty) (y_type : y.typeIn Γ = F.ty) :
    (p.setInst inst { p.insts inst with args := [x, y] }).WellTyped Γ := by
  refine typed.setInst ((Program.typedAt_iff (by simp [opcode, F.ne_identity])
    (by simp [opcode, F.ne_phi])).mpr ?_)
  simp [opcode, F.resultType_eq, F.argTypes_eq, x_type, y_type, (operands (typed inst) opcode).1]

theorem closed_setOperands (closed : p.Closed) {x y : Value} (x_below : x.RefersBelow p.count)
    (y_below : y.RefersBelow p.count) :
    (p.setInst inst { p.insts inst with args := [x, y] }).Closed :=
  closed.setInst (by simp [x_below, y_below])

/-- In a typed program, an operand of type `ty` that resolves to an immediate reads as one. -/
theorem arg_of_resolve (typed : p.WellTyped Γ) {value : Value} (value_type : value.typeIn Γ = F.ty)
    {imm : Imm} (resolves : p.resolve value = .ok (.imm imm)) : ∃ a, F.type.arg p value = .ok a := by
  have imm_type : (Datum.scalar imm).HasType F.ty :=
    (resolve_typeIn typed resolves).symm.trans value_type
  refine ⟨F.read (.scalar imm), F.arg_eq_ok.mpr ?_⟩
  rw [resolves, ← Datum.scalar.inj (F.eq_of_hasType imm_type)]

theorem arg_imm (q : Program) (a : T) : F.type.arg q (.imm (F.type.value a)) = .ok a :=
  F.arg_eq_ok.mpr (Program.resolve_imm _)

/-- Rewriting the operands leaves every read as it was. -/
theorem arg_setOperands (opcode : (p.insts inst).op = F.op) {x y value : Value} {a : T}
    (reads : F.type.arg p value = .ok a) :
    F.type.arg (p.setInst inst { p.insts inst with args := [x, y] }) value = .ok a := by
  rw [F.arg_eq_ok, Program.resolve_setInst (by simp [opcode, F.ne_identity])
    (by simp [opcode, F.ne_identity]), ← F.arg_eq_ok]
  exact reads

end CommutativeOp

/-! ## Every outcome keeps executions, typing and closedness -/

namespace CommutativeStep

section Shape

variable {T : Type} {type : ArgType T} {immFn : T → T → T} {p p₁ : Program} {inst : Nat}
  {notFolded : Bool}

theorem count_eq (step : CommutativeStep type immFn p inst (notFolded, p₁)) :
    p₁.count = p.count := by
  cases step <;> rfl

/-- An outcome that is not an immediate keeps the opcode. -/
theorem op_eq (step : CommutativeStep type immFn p inst (true, p₁)) :
    (p₁.insts inst).op = (p.insts inst).op := by
  cases step <;> simp [Program.setArg]

theorem op_cases (step : CommutativeStep type immFn p inst (notFolded, p₁)) :
    (p₁.insts inst).op = (p.insts inst).op ∨ (p₁.insts inst).op = .identity := by
  cases notFolded
  · cases step
    exact .inr (by simp [Program.replaceUsesWith])
  · exact .inl (op_eq step)

end Shape

open CommutativeOp

variable {T : Type} {F : CommutativeOp T} {p p₁ : Program} {inst : Nat} {notFolded : Bool}
  {Γ : Nat → Ty}

/-- A merge writes the producer's first operand and an immediate; their `immFn` is the old one. -/
theorem merged_same {env : Env} {ρ : Nat → Datum} (consistent : p.Consistent env ρ)
    (opcode : (p.insts inst).op = F.op) {constant other : Value} {producer : Nat} {a c : T}
    (sides : constant = (p.insts inst).arg 0 ∧ other = (p.insts inst).arg 1 ∨
      constant = (p.insts inst).arg 1 ∧ other = (p.insts inst).arg 0)
    (constant_reads : F.type.arg p constant = .ok a)
    (other_resolves : p.resolve other = .ok (.inst producer))
    (same_op : (p.insts producer).op = (p.insts inst).op)
    (producer_reads : F.type.arg p ((p.insts producer).arg 1) = .ok c) :
    F.immFn (F.read (((p.insts producer).arg 0).denote ρ))
        (F.read ((Value.imm (F.type.value (F.immFn a c))).denote ρ)) =
      F.immFn (F.read (((p.insts inst).arg 0).denote ρ)) (F.read (((p.insts inst).arg 1).denote ρ)) := by
  have other_read : F.read (other.denote ρ) =
      F.immFn (F.read (((p.insts producer).arg 0).denote ρ)) c := by
    rw [resolve_denote consistent other_resolves, Value.denote_inst,
      value consistent (same_op.trans opcode), F.read_value, read_of_arg consistent producer_reads]
  rw [Value.denote_imm, F.read_value]
  rcases sides with ⟨rfl, rfl⟩ | ⟨rfl, rfl⟩
  · rw [read_of_arg consistent constant_reads, other_read, F.left_comm]
  · rw [read_of_arg consistent constant_reads, other_read, F.comm _ a, F.left_comm]

theorem consistent (step : CommutativeStep F.type F.immFn p inst (notFolded, p₁))
    (opcode : (p.insts inst).op = F.op) (typed : p.WellTyped Γ) {env : Env} {ρ : Nat → Datum}
    (consistent : p.Consistent env ρ) : p₁.Consistent env ρ := by
  have pair := (operands (typed inst) opcode).2.1
  cases step with
  | folded lhs_reads rhs_reads =>
      refine consistent.replaceUsesWith ?_
      rw [value consistent opcode, read_of_arg consistent lhs_reads,
        read_of_arg consistent rhs_reads, Value.denote_imm]
  | merged sides constant_reads other_resolves same_op producer_reads =>
      rw [p.setArg_setArg_of_pair pair]
      exact consistent_setOperands consistent opcode
        (merged_same consistent opcode sides constant_reads other_resolves same_op producer_reads)
  | swapped =>
      rw [p.setArg_setArg_of_pair pair]
      exact consistent_setOperands consistent opcode (F.comm _ _)
  | kept => exact consistent

theorem wellTyped (step : CommutativeStep F.type F.immFn p inst (notFolded, p₁))
    (opcode : (p.insts inst).op = F.op) (typed : p.WellTyped Γ) : p₁.WellTyped Γ := by
  obtain ⟨result, pair, lhs_type, rhs_type⟩ := operands (typed inst) opcode
  cases step with
  | folded => exact typed.replaceUsesWith (by simp [Value.typeIn, F.value_type, result])
  | merged _ _ _ same_op =>
      rw [p.setArg_setArg_of_pair pair]
      exact wellTyped_setOperands typed opcode
        (operands (typed _) (same_op.trans opcode)).2.2.1 (F.value_type _)
  | swapped =>
      rw [p.setArg_setArg_of_pair pair]
      exact wellTyped_setOperands typed opcode rhs_type lhs_type
  | kept => exact typed

theorem closed (step : CommutativeStep F.type F.immFn p inst (notFolded, p₁))
    (opcode : (p.insts inst).op = F.op) (typed : p.WellTyped Γ) (closed : p.Closed) :
    p₁.Closed := by
  have pair := (operands (typed inst) opcode).2.1
  cases step with
  | folded => exact closed.replaceUsesWith trivial
  | merged =>
      rw [p.setArg_setArg_of_pair pair]
      exact closed_setOperands closed (closed.arg _ 0) trivial
  | swapped =>
      rw [p.setArg_setArg_of_pair pair]
      exact closed_setOperands closed (closed.arg inst 1) (closed.arg inst 0)
  | kept => exact closed

end CommutativeStep

open CommutativeOp in
/-- In a typed program whose `Identity` chains end, `FoldCommutative` returns on an instruction
with an operand that resolves to an immediate: it folds the instruction to an immediate, or
leaves a second operand that reads as one. -/
theorem foldCommutative_progress {T : Type} (F : CommutativeOp T) {p : Program} {inst : Nat}
    {Γ : Nat → Ty} (opcode : (p.insts inst).op = F.op) (typed : p.WellTyped Γ)
    (chains : p.ChainsEnd)
    (immediate : (∃ imm, p.resolve ((p.insts inst).arg 0) = .ok (.imm imm)) ∨
      ∃ imm, p.resolve ((p.insts inst).arg 1) = .ok (.imm imm)) :
    ∃ notFolded p₁, foldCommutative F.type p inst F.immFn = .ok (notFolded, p₁) ∧
      (notFolded = false → (p₁.insts inst).op = .identity) ∧
      (notFolded = true → ∃ a, F.type.arg p₁ ((p₁.insts inst).arg 1) = .ok a) := by
  obtain ⟨-, pair, lhs_type, rhs_type⟩ := operands (typed inst) opcode
  obtain ⟨lhs, lhs_resolves⟩ := chains ((p.insts inst).arg 0)
  obtain ⟨rhs, rhs_resolves⟩ := chains ((p.insts inst).arg 1)
  cases lhs with
  | imm i =>
    obtain ⟨a, a_reads⟩ := arg_of_resolve typed lhs_type lhs_resolves
    have lhs_imm := Program.isImmediate_eq_ok_true.mpr ⟨i, lhs_resolves⟩
    cases rhs with
    | imm j =>
      obtain ⟨b, b_reads⟩ := arg_of_resolve typed rhs_type rhs_resolves
      have rhs_imm := Program.isImmediate_eq_ok_true.mpr ⟨j, rhs_resolves⟩
      refine ⟨false, p.replaceUsesWith inst (.imm (F.type.value (F.immFn a b))), ?_,
        fun _ => by simp [Program.replaceUsesWith], nofun⟩
      simp [foldCommutative, lhs_imm, rhs_imm, a_reads, b_reads]
    | inst r =>
      have rhs_imm := Program.isImmediate_eq_ok_false.mpr ⟨r, rhs_resolves⟩
      have rhs_inst := Program.instRecursive_eq_ok.mpr rhs_resolves
      have swap : ∃ a, F.type.arg ((p.setArg inst 0 ((p.insts inst).arg 1)).setArg inst 1
          ((p.insts inst).arg 0)) (((p.setArg inst 0 ((p.insts inst).arg 1)).setArg inst 1
          ((p.insts inst).arg 0)).insts inst |>.arg 1) = .ok a := by
        rw [p.setArg_setArg_of_pair pair]
        exact ⟨a, by simpa [Inst.arg] using arg_setOperands opcode a_reads⟩
      by_cases same_op : (p.insts r).op = (p.insts inst).op
      · obtain ⟨c', c_resolves⟩ := chains ((p.insts r).arg 1)
        cases c' with
        | imm k =>
          obtain ⟨c, c_reads⟩ :=
            arg_of_resolve typed (operands (typed r) (same_op.trans opcode)).2.2.2 c_resolves
          have c_imm := Program.isImmediate_eq_ok_true.mpr ⟨k, c_resolves⟩
          refine ⟨true, (p.setArg inst 0 ((p.insts r).arg 0)).setArg inst 1
            (.imm (F.type.value (F.immFn a c))), ?_, nofun, fun _ => ⟨F.immFn a c, ?_⟩⟩
          · simp [foldCommutative, lhs_imm, rhs_imm, rhs_inst, same_op, c_imm, a_reads, c_reads]
          · simpa [Program.setArg] using arg_imm _ _
        | inst k =>
          have c_imm := Program.isImmediate_eq_ok_false.mpr ⟨k, c_resolves⟩
          refine ⟨true, _, ?_, nofun, fun _ => swap⟩
          simp [foldCommutative, lhs_imm, rhs_imm, rhs_inst, same_op, c_imm]
      · refine ⟨true, _, ?_, nofun, fun _ => swap⟩
        simp [foldCommutative, lhs_imm, rhs_imm, rhs_inst, same_op]
  | inst l =>
    obtain ⟨j, rfl⟩ : ∃ j, rhs = .imm j := by
      rcases immediate with ⟨imm, resolves⟩ | ⟨imm, resolves⟩
      · rw [lhs_resolves] at resolves
        cases resolves
      · rw [rhs_resolves] at resolves
        exact ⟨imm, by injection resolves⟩
    obtain ⟨b, b_reads⟩ := arg_of_resolve typed rhs_type rhs_resolves
    have lhs_imm := Program.isImmediate_eq_ok_false.mpr ⟨l, lhs_resolves⟩
    have rhs_imm := Program.isImmediate_eq_ok_true.mpr ⟨j, rhs_resolves⟩
    have lhs_inst := Program.instRecursive_eq_ok.mpr lhs_resolves
    by_cases same_op : (p.insts l).op = (p.insts inst).op
    · obtain ⟨c', c_resolves⟩ := chains ((p.insts l).arg 1)
      cases c' with
      | imm k =>
        obtain ⟨c, c_reads⟩ :=
          arg_of_resolve typed (operands (typed l) (same_op.trans opcode)).2.2.2 c_resolves
        have c_imm := Program.isImmediate_eq_ok_true.mpr ⟨k, c_resolves⟩
        refine ⟨true, (p.setArg inst 0 ((p.insts l).arg 0)).setArg inst 1
          (.imm (F.type.value (F.immFn b c))), ?_, nofun, fun _ => ⟨F.immFn b c, ?_⟩⟩
        · simp [foldCommutative, lhs_imm, rhs_imm, lhs_inst, same_op, c_imm, b_reads, c_reads]
        · simpa [Program.setArg] using arg_imm _ _
      | inst k =>
        have c_imm := Program.isImmediate_eq_ok_false.mpr ⟨k, c_resolves⟩
        refine ⟨true, p, ?_, nofun, fun _ => ⟨b, b_reads⟩⟩
        simp [foldCommutative, lhs_imm, rhs_imm, lhs_inst, same_op, c_imm]
    · refine ⟨true, p, ?_, nofun, fun _ => ⟨b, b_reads⟩⟩
      simp [foldCommutative, lhs_imm, rhs_imm, lhs_inst, same_op]

/-! ## `FoldAdd` -/

section FoldAdd

variable {T : Type} [Add T] [OfNat T 0] [DecidableEq T] {type : ArgType T} {isU32 : Bool}
  {p p' : Program} {block inst : Nat}

/-- What `FoldAdd` can return: the program unchanged (a pseudo-operation), an outcome of
`FoldCommutative`, that outcome with `x + 0` replaced by `x`, or what `FoldXmadMultiply` made of
it. -/
theorem foldAdd_cases (folded : foldAdd type isU32 p block inst = .ok p') :
    p' = p ∨ ∃ notFolded p₁, CommutativeStep type (· + ·) p inst (notFolded, p₁) ∧
      (p' = p₁ ∨ notFolded = true ∧
        (type.arg p₁ ((p₁.insts inst).arg 1) = .ok 0 ∧
            p' = p₁.replaceUsesWith inst ((p₁.insts inst).arg 0) ∨
          isU32 = true ∧ ∃ matched, foldXmadMultiply p₁ block inst = .ok (matched, p'))) := by
  simp only [foldAdd, bind_eq_ok, ite_pure_eq_ok] at folded
  rcases folded with ⟨-, rfl⟩ | ⟨-, ⟨notFolded, p₁⟩, commuted, folded⟩
  · exact .inl rfl
  refine .inr ⟨notFolded, p₁, foldCommutative_step commuted, ?_⟩
  rcases folded with ⟨-, rfl⟩ | ⟨kept, isImm, -, folded⟩
  · exact .inl rfl
  simp only [Bool.not_eq_true', Bool.not_eq_false] at kept
  have tail : (if isU32 = true then Prod.snd <$> foldXmadMultiply p₁ block inst
      else pure p₁) = .ok p' → p' = p₁ ∨ notFolded = true ∧
        (type.arg p₁ ((p₁.insts inst).arg 1) = .ok 0 ∧
            p' = p₁.replaceUsesWith inst ((p₁.insts inst).arg 0) ∨
          isU32 = true ∧ ∃ matched, foldXmadMultiply p₁ block inst = .ok (matched, p')) := by
    intro returned
    split at returned
    · obtain ⟨⟨matched, p₂⟩, xmad, rfl⟩ := map_eq_ok.mp returned
      exact .inr ⟨kept, .inr ⟨‹_›, matched, xmad⟩⟩
    · exact .inl (pure_eq_ok.mp returned).symm
  split at folded
  · simp only [bind_eq_ok, map_eq_ok, ite_pure_eq_ok] at folded
    obtain ⟨isZero, ⟨a, a_reads, rfl⟩, ⟨zero, rfl⟩ | ⟨-, folded⟩⟩ := folded
    · exact .inr ⟨kept, .inl ⟨of_decide_eq_true zero ▸ a_reads, rfl⟩⟩
    · exact tail folded
  · simp only [bind_eq_ok, pure_eq_ok, exists_eq_left', Bool.false_eq_true, if_false] at folded
    exact tail folded

/-- `FoldAdd` leaves the instruction with its opcode or makes it an `Identity`. -/
theorem foldAdd_op (folded : foldAdd type isU32 p block inst = .ok p') :
    (p'.insts inst).op = (p.insts inst).op ∨ (p'.insts inst).op = .identity := by
  rcases foldAdd_cases folded with
    rfl | ⟨notFolded, p₁, step, rfl | ⟨rfl, ⟨-, rfl⟩ | ⟨-, matched, product⟩⟩⟩
  · exact .inl rfl
  · exact step.op_cases
  · exact .inr (by simp [Program.replaceUsesWith])
  cases matched
  · obtain rfl : p' = p₁ := foldXmadMultiply_declined _ product rfl
    exact step.op_cases
  · obtain ⟨m, rfl⟩ := foldXmadMultiply_eq_ok_true product
    exact .inr (by simp [Program.replaceUsesWith])

/-- `%0 = IAdd32 #5, #2`, carrying a pseudo-operation, and `%1 = IAdd32 #1, %0`. -/
def pseudoMerge : Program :=
  .ofInsts
    [{ op := .iAdd32, args := [.imm (.u32 5), .imm (.u32 2)], pseudo := true },
     { op := .iAdd32, args := [.imm (.u32 1), .inst 0] }]

/-- What one run of the pass makes of `pseudoMerge`. `FoldAdd` leaves `%0`, which carries a
pseudo-operation, but `FoldCommutative` on `%1` merges through it: `%1 = IAdd32 #5, #3`. -/
def pseudoMergeOnce : Program :=
  (pseudoMerge.setArg 1 0 (.imm (.u32 5))).setArg 1 1 (.imm (.u32 3))

/-- A second run of the pass changes what the first returned: `%1` now adds two immediates, and
`FoldCommutative` folds it to `#8`. -/
theorem pseudoMerge_second_run_folds :
    (pseudoMerge.insts 0).pseudo = true ∧
      constantPropagationPass pseudoMerge = .ok pseudoMergeOnce ∧
      pseudoMergeOnce.insts 1 = { op := .iAdd32, args := [.imm (.u32 5), .imm (.u32 3)] } ∧
      (constantPropagationPass pseudoMergeOnce).map (·.insts 1) =
        .ok { op := .identity, args := [.imm (.u32 8)] } :=
  ⟨rfl, rfl, rfl, rfl⟩

end FoldAdd

/-! ## `FoldLogicalAnd` and `FoldLogicalOr` -/

section Logical

variable {p p' : Program} {inst : Nat}

/-- What `FoldLogicalAnd` can return: an outcome of `FoldCommutative`, or, when that kept the
instruction and its second operand is the immediate `b`, the first operand (`b` true) or `false`. -/
theorem foldLogicalAnd_cases (folded : foldLogicalAnd p inst = .ok p') :
    ∃ notFolded p₁, CommutativeStep .bool (· && ·) p inst (notFolded, p₁) ∧
      (p' = p₁ ∨ notFolded = true ∧ ∃ b, p₁.u1 ((p₁.insts inst).arg 1) = .ok b ∧
        p' = if b then p₁.replaceUsesWith inst ((p₁.insts inst).arg 0)
          else p₁.replaceUsesWith inst (.imm (.u1 false))) := by
  simp only [foldLogicalAnd, bind_eq_ok, ite_pure_eq_ok] at folded
  obtain ⟨⟨notFolded, p₁⟩, commuted, folded⟩ := folded
  refine ⟨notFolded, p₁, foldCommutative_step commuted, ?_⟩
  rcases folded with ⟨-, rfl⟩ | ⟨kept, isImm, -, folded⟩
  · exact .inl rfl
  simp only [Bool.not_eq_true', Bool.not_eq_false] at kept
  split at folded
  · obtain ⟨b, reads, folded⟩ := bind_eq_ok.mp folded
    refine .inr ⟨kept, b, reads, ?_⟩
    split at folded <;> simp_all
  · exact .inl (pure_eq_ok.mp folded).symm

/-- What `FoldLogicalOr` can return: the same, with `true` for `b` true and the first operand
otherwise. -/
theorem foldLogicalOr_cases (folded : foldLogicalOr p inst = .ok p') :
    ∃ notFolded p₁, CommutativeStep .bool (· || ·) p inst (notFolded, p₁) ∧
      (p' = p₁ ∨ notFolded = true ∧ ∃ b, p₁.u1 ((p₁.insts inst).arg 1) = .ok b ∧
        p' = if b then p₁.replaceUsesWith inst (.imm (.u1 true))
          else p₁.replaceUsesWith inst ((p₁.insts inst).arg 0)) := by
  simp only [foldLogicalOr, bind_eq_ok, ite_pure_eq_ok] at folded
  obtain ⟨⟨notFolded, p₁⟩, commuted, folded⟩ := folded
  refine ⟨notFolded, p₁, foldCommutative_step commuted, ?_⟩
  rcases folded with ⟨-, rfl⟩ | ⟨kept, isImm, -, folded⟩
  · exact .inl rfl
  simp only [Bool.not_eq_true', Bool.not_eq_false] at kept
  split at folded
  · obtain ⟨b, reads, folded⟩ := bind_eq_ok.mp folded
    refine .inr ⟨kept, b, reads, ?_⟩
    split at folded <;> simp_all
  · exact .inl (pure_eq_ok.mp folded).symm

open CommutativeOp

variable {Γ : Nat → Ty}

theorem foldLogicalAnd_op (folded : foldLogicalAnd p inst = .ok p') :
    (p'.insts inst).op = (p.insts inst).op ∨ (p'.insts inst).op = .identity := by
  obtain ⟨notFolded, p₁, step, rfl | ⟨rfl, b, -, rfl⟩⟩ := foldLogicalAnd_cases folded
  · exact step.op_cases
  · exact .inr (by cases b <;> simp [Program.replaceUsesWith])

theorem foldLogicalOr_op (folded : foldLogicalOr p inst = .ok p') :
    (p'.insts inst).op = (p.insts inst).op ∨ (p'.insts inst).op = .identity := by
  obtain ⟨notFolded, p₁, step, rfl | ⟨rfl, b, -, rfl⟩⟩ := foldLogicalOr_cases folded
  · exact step.op_cases
  · exact .inr (by cases b <;> simp [Program.replaceUsesWith])

variable (immediate : (∃ imm, p.resolve ((p.insts inst).arg 0) = .ok (.imm imm)) ∨
  ∃ imm, p.resolve ((p.insts inst).arg 1) = .ok (.imm imm))

include immediate in
/-- A `LogicalAnd` with an operand that resolves to an immediate is replaced: by `false`, by its
other operand, or by the folded constant. -/
theorem foldLogicalAnd_replaces (opcode : (p.insts inst).op = .logicalAnd) (typed : p.WellTyped Γ)
    (chains : p.ChainsEnd) : ∃ p', foldLogicalAnd p inst = .ok p' ∧ (p'.insts inst).op = .identity := by
  obtain ⟨notFolded, p₁, commuted, folded, reads⟩ :=
    foldCommutative_progress .logicalAnd opcode typed chains immediate
  replace commuted : foldCommutative .bool p inst (· && ·) = .ok (notFolded, p₁) := commuted
  cases notFolded
  · exact ⟨p₁, by simp [foldLogicalAnd, commuted], folded rfl⟩
  obtain ⟨b, b_reads⟩ := reads rfl
  replace b_reads : p₁.u1 ((p₁.insts inst).arg 1) = .ok b := b_reads
  have rhs_imm := Program.isImmediate_eq_ok_true.mpr ⟨_, Program.u1_eq_ok.mp b_reads⟩
  cases b
  · exact ⟨p₁.replaceUsesWith inst (.imm (.u1 false)),
      by simp [foldLogicalAnd, commuted, rhs_imm, b_reads], by simp [Program.replaceUsesWith]⟩
  · exact ⟨p₁.replaceUsesWith inst ((p₁.insts inst).arg 0),
      by simp [foldLogicalAnd, commuted, rhs_imm, b_reads], by simp [Program.replaceUsesWith]⟩

include immediate in
/-- The same for `LogicalOr`. -/
theorem foldLogicalOr_replaces (opcode : (p.insts inst).op = .logicalOr) (typed : p.WellTyped Γ)
    (chains : p.ChainsEnd) : ∃ p', foldLogicalOr p inst = .ok p' ∧ (p'.insts inst).op = .identity := by
  obtain ⟨notFolded, p₁, commuted, folded, reads⟩ :=
    foldCommutative_progress .logicalOr opcode typed chains immediate
  replace commuted : foldCommutative .bool p inst (· || ·) = .ok (notFolded, p₁) := commuted
  cases notFolded
  · exact ⟨p₁, by simp [foldLogicalOr, commuted], folded rfl⟩
  obtain ⟨b, b_reads⟩ := reads rfl
  replace b_reads : p₁.u1 ((p₁.insts inst).arg 1) = .ok b := b_reads
  have rhs_imm := Program.isImmediate_eq_ok_true.mpr ⟨_, Program.u1_eq_ok.mp b_reads⟩
  cases b
  · exact ⟨p₁.replaceUsesWith inst ((p₁.insts inst).arg 0),
      by simp [foldLogicalOr, commuted, rhs_imm, b_reads], by simp [Program.replaceUsesWith]⟩
  · exact ⟨p₁.replaceUsesWith inst (.imm (.u1 true)),
      by simp [foldLogicalOr, commuted, rhs_imm, b_reads], by simp [Program.replaceUsesWith]⟩

end Logical

end Shader.Optimization

import Uzuy.Shader.IR.Value
import Mathlib.Data.List.GetD

/-!
# Instructions, blocks and programs

Instructions live in an arena and are referred to by handle; a block lists handles in program
order. `ReplaceUsesWith` turns an instruction into an `Identity` of its replacement, so every use
of it resolves to the replacement from then on. The walks that follow `Identity` chains take at
most one step per allocated instruction, which an acyclic chain never exceeds; a longer walk is
the C++ loop that never returns, and ends in `Exception.diverges`.
-/

namespace Shader.IR

/-- Modelled from the spec: an instruction of the arena. -/
structure Inst where
  /-- Operation. -/
  op : Opcode
  /-- Argument values; a slot past the end reads `void`. -/
  args : List Value
  /-- The `no_contraction` bit of the floating-point control flags. -/
  noContraction : Bool := false
  /-- Whether a pseudo-operation (carry, zero, sign or overflow result) is attached. -/
  pseudo : Bool := false
  deriving DecidableEq, Repr

namespace Inst

/-- Modelled from the spec: `Inst::Arg`. -/
def arg (inst : Inst) (index : Nat) : Value :=
  inst.args.getD index (.imm .void)

/-- Modelled from the spec: `Inst::SetArg`. Slots between the last argument and `index` keep
reading `void`. -/
def setArg (inst : Inst) (index : Nat) (value : Value) : Inst :=
  { inst with
    args := (inst.args ++ List.replicate (index + 1 - inst.args.length) (Value.imm .void)).set
      index value }

@[simp]
theorem setArg_op (inst : Inst) (index : Nat) (value : Value) :
    (inst.setArg index value).op = inst.op := rfl

@[simp]
theorem setArg_noContraction (inst : Inst) (index : Nat) (value : Value) :
    (inst.setArg index value).noContraction = inst.noContraction := rfl

@[simp]
theorem setArg_pseudo (inst : Inst) (index : Nat) (value : Value) :
    (inst.setArg index value).pseudo = inst.pseudo := rfl

private theorem getD_padded (args : List Value) (count slot : Nat) :
    (args ++ List.replicate count (Value.imm .void)).getD slot (.imm .void) =
      args.getD slot (.imm .void) := by
  rcases Nat.lt_or_ge slot args.length with inside | outside
  · exact List.getD_append _ _ _ _ inside
  · rw [List.getD_append_right _ _ _ _ outside, List.getD_eq_default _ _ outside]
    simp

@[simp]
theorem arg_setArg_self (inst : Inst) (index : Nat) (value : Value) :
    (inst.setArg index value).arg index = value := by
  simp only [setArg, arg, List.getD_eq_getElem?_getD]
  rw [List.getElem?_set_self (by simp; omega)]
  rfl

theorem arg_setArg_of_ne (inst : Inst) {index slot : Nat} (value : Value) (ne : slot ≠ index) :
    (inst.setArg index value).arg slot = inst.arg slot := by
  have padded := getD_padded inst.args (index + 1 - inst.args.length) slot
  simp only [List.getD_eq_getElem?_getD] at padded
  simp only [setArg, arg, List.getD_eq_getElem?_getD, List.getElem?_set_ne (Ne.symm ne), padded]

/-- `SetArg` on both operands of a two-operand instruction replaces its operand list. -/
theorem setArg_setArg_of_pair {inst : Inst} {a b : Value} (pair : inst.args = [a, b])
    (x y : Value) : (inst.setArg 0 x).setArg 1 y = { inst with args := [x, y] } := by
  simp [setArg, pair]

theorem setArg_setArg_setArg_of_triple {inst : Inst} {a b c : Value}
    (triple : inst.args = [a, b, c]) (x y z : Value) :
    ((inst.setArg 0 x).setArg 1 y).setArg 2 z = { inst with args := [x, y, z] } := by
  simp [setArg, triple]

end Inst

/-- A value that is an immediate or refers to an instruction below `count`. -/
def Value.RefersBelow (count : Nat) : Value → Prop
  | .imm _ => True
  | .inst id => id < count

/-- Modelled from the spec: a program, with its instruction arena and its blocks. -/
structure Program where
  /-- The instruction behind each handle. -/
  insts : Nat → Inst
  /-- Size of the arena: the handles below it are allocated, the next one emitted gets it. -/
  count : Nat
  /-- Instruction handles of each block, in program order. -/
  blocks : Nat → List Nat
  /-- `post_order_blocks`: the blocks in post-order of the control-flow graph. -/
  postOrderBlocks : List Nat

/-- Modelled from the spec: follow `Identity` instructions from a value, at most `fuel` of them. -/
def resolveWith (insts : Nat → Inst) : Nat → Value → Except Exception Value
  | _, .imm imm => .ok (.imm imm)
  | 0, .inst id => if (insts id).op = .identity then .error .diverges else .ok (.inst id)
  | fuel + 1, .inst id =>
      if (insts id).op = .identity then resolveWith insts fuel ((insts id).arg 0)
      else .ok (.inst id)

namespace Program

variable (p : Program)

/-- Modelled from the spec: `Value::Resolve`. -/
def resolve (value : Value) : Except Exception Value :=
  resolveWith p.insts p.count value

/-- Every walk through `Identity` chains ends within its bound: `Value::Resolve` returns on every
value, as on an SSA program, where an `Identity` is dominated by its argument. -/
def ChainsEnd : Prop :=
  ∀ value, ∃ result, p.resolve value = .ok result

/-- Two values resolve, to the same value: equal up to `Identity` resolution, as a matcher that
compares `Resolve()` results finds them. -/
def ResolvesAlike (x y : Value) : Prop :=
  ∃ result, p.resolve x = .ok result ∧ p.resolve y = .ok result

/-- Modelled from the spec: `Value::IsImmediate`, which looks through `Identity` chains. -/
def isImmediate (value : Value) : Except Exception Bool := do
  match ← p.resolve value with
  | .imm _ => pure true
  | .inst _ => pure false

/-- Modelled from the spec: `Value::InstRecursive`. -/
def instRecursive (value : Value) : Except Exception Nat := do
  match ← p.resolve value with
  | .inst id => pure id
  | .imm imm => throw (.badRead imm.type .ref)

/-- Modelled from the spec: `Value::U1`. -/
def u1 (value : Value) : Except Exception Bool := p.resolve value >>= Value.toU1

/-- Modelled from the spec: `Value::U32`. -/
def u32 (value : Value) : Except Exception (BitVec 32) := p.resolve value >>= Value.toU32

/-- Modelled from the spec: `Value::U64`. -/
def u64 (value : Value) : Except Exception (BitVec 64) := p.resolve value >>= Value.toU64

/-- Modelled from the spec: `Value::F32`. -/
def f32 (value : Value) : Except Exception (BitVec 32) := p.resolve value >>= Value.toF32

/-- Modelled from the spec: `Value::Reg`. -/
def reg (value : Value) : Except Exception Reg := p.resolve value >>= Value.toReg

/-- Modelled from the spec: `Value::Pred`. -/
def pred (value : Value) : Except Exception Pred := p.resolve value >>= Value.toPred

/-- Modelled from the spec: `Value::Attribute`. -/
def attr (value : Value) : Except Exception Attribute := p.resolve value >>= Value.toAttribute

/-- Replace the instruction behind a handle. -/
def setInst (id : Nat) (inst : Inst) : Program :=
  { p with insts := fun other => if other = id then inst else p.insts other }

/-- Modelled from the spec: `Inst::SetArg` on the instruction behind `id`. -/
def setArg (id index : Nat) (value : Value) : Program :=
  p.setInst id ((p.insts id).setArg index value)

/-- Modelled from the spec: `Inst::ReplaceUsesWith`. The instruction becomes an `Identity` of
the replacement; its flags and pseudo-operation stay. -/
def replaceUsesWith (id : Nat) (value : Value) : Program :=
  p.setInst id { p.insts id with op := .identity, args := [value] }

/-- Modelled from the spec: `Inst::ReplaceOpcode`. -/
def replaceOpcode (id : Nat) (op : Opcode) : Program :=
  p.setInst id { p.insts id with op := op }

/-- Modelled from the spec: `Block::PrependNewInst` at the position of `before`, as an
`IR::IREmitter` placed there uses it. The new instruction gets the next handle. -/
def prependNewInst (block before : Nat) (op : Opcode) (args : List Value) : Nat × Program :=
  (p.count,
    { insts := fun other => if other = p.count then { op, args } else p.insts other
      count := p.count + 1
      blocks := fun other =>
        if other = block then
          (p.blocks other).flatMap fun id => if id = before then [p.count, id] else [id]
        else p.blocks other
      postOrderBlocks := p.postOrderBlocks })

/-- Modelled from the spec: every operand that refers to an instruction refers to one the arena
has allocated. -/
def Closed : Prop :=
  ∀ id, ∀ value ∈ (p.insts id).args, value.RefersBelow p.count

/-- A program of one block that runs `insts` in order, under the handles `0, 1, …`. -/
def ofInsts (insts : List Inst) : Program where
  insts id := insts.getD id { op := .other 0 [] .void, args := [] }
  count := insts.length
  blocks _ := List.range insts.length
  postOrderBlocks := [0]

@[simp]
theorem setInst_insts_self (id : Nat) (inst : Inst) : (p.setInst id inst).insts id = inst := by
  simp [setInst]

theorem setInst_insts_of_ne {id other : Nat} (inst : Inst) (ne : other ≠ id) :
    (p.setInst id inst).insts other = p.insts other := by
  simp [setInst, ne]

@[simp]
theorem setInst_count (id : Nat) (inst : Inst) : (p.setInst id inst).count = p.count := rfl

@[simp]
theorem setInst_blocks (id : Nat) (inst : Inst) : (p.setInst id inst).blocks = p.blocks := rfl

@[simp]
theorem setInst_postOrderBlocks (id : Nat) (inst : Inst) :
    (p.setInst id inst).postOrderBlocks = p.postOrderBlocks := rfl

@[simp]
theorem prependNewInst_insts_self (block before : Nat) (op : Opcode) (args : List Value) :
    (p.prependNewInst block before op args).2.insts p.count = { op, args } := by
  simp [prependNewInst]

variable {p} in
theorem prependNewInst_insts_of_ne {block before other : Nat} {op : Opcode} {args : List Value}
    (ne : other ≠ p.count) : (p.prependNewInst block before op args).2.insts other = p.insts other :=
  if_neg ne

/-- What `PrependNewInst` puts in place of `id`: `id`, preceded by `fresh` when `id` is
`before`. -/
theorem mem_prepended {fresh before id a : Nat}
    (member : a ∈ if id = before then [fresh, id] else [id]) :
    a = id ∨ a = fresh ∧ id = before := by
  split at member
  · rcases List.mem_pair.mp member with rfl | rfl
    · exact .inr ⟨rfl, ‹_›⟩
    · exact .inl rfl
  · exact .inl (List.mem_singleton.mp member)

variable {p} in
/-- A block after an emission lists what it listed, and the new handle. -/
theorem mem_prependNewInst_blocks {block before n id : Nat} {op : Opcode} {args : List Value}
    (member : id ∈ (p.prependNewInst block before op args).2.blocks n) :
    id ∈ p.blocks n ∨ id = p.count := by
  simp only [prependNewInst] at member
  split at member
  · obtain ⟨old, kept, emitted⟩ := List.mem_flatMap.mp member
    rcases mem_prepended emitted with rfl | ⟨rfl, -⟩
    · exact .inl kept
    · exact .inr rfl
  · exact .inl member

theorem setArg_insts_of_ne {id other : Nat} (index : Nat) (value : Value) (ne : other ≠ id) :
    (p.setArg id index value).insts other = p.insts other :=
  setInst_insts_of_ne _ _ ne

theorem replaceOpcode_insts_of_ne {id other : Nat} (op : Opcode) (ne : other ≠ id) :
    (p.replaceOpcode id op).insts other = p.insts other :=
  setInst_insts_of_ne _ _ ne

@[simp]
theorem setInst_setInst_self (id : Nat) (inst inst' : Inst) :
    (p.setInst id inst).setInst id inst' = p.setInst id inst' := by
  simp only [setInst, Program.mk.injEq, and_true]
  funext other
  split <;> rfl

theorem setArg_setArg_of_pair {id : Nat} {a b : Value} (pair : (p.insts id).args = [a, b])
    (x y : Value) :
    (p.setArg id 0 x).setArg id 1 y = p.setInst id { p.insts id with args := [x, y] } := by
  simp only [setArg, setInst_insts_self, setInst_setInst_self, Inst.setArg_setArg_of_pair pair]

theorem setArg_setArg_setArg_of_triple {id : Nat} {a b c : Value}
    (triple : (p.insts id).args = [a, b, c]) (x y z : Value) :
    ((p.setArg id 0 x).setArg id 1 y).setArg id 2 z =
      p.setInst id { p.insts id with args := [x, y, z] } := by
  simp only [setArg, setInst_insts_self, setInst_setInst_self,
    Inst.setArg_setArg_setArg_of_triple triple]

/-- `ReplaceOpcode` and then `SetArg` on the first two slots of a one-operand instruction. -/
theorem replaceOpcode_setArg_setArg_of_single {id : Nat} {a : Value}
    (single : (p.insts id).args = [a]) (op : Opcode) (x y : Value) :
    ((p.replaceOpcode id op).setArg id 0 x).setArg id 1 y =
      p.setInst id { p.insts id with op, args := [x, y] } := by
  simp only [replaceOpcode, setArg, setInst_insts_self, setInst_setInst_self]
  congr 1
  simp [Inst.setArg, single]

/-- A `SetArg` and a `ReplaceUsesWith` on two different instructions commute. -/
theorem setArg_replaceUsesWith_of_ne {id other : Nat} (ne : other ≠ id) (index : Nat)
    (arg value : Value) :
    (p.replaceUsesWith id value).setArg other index arg =
      (p.setArg other index arg).replaceUsesWith id value := by
  simp only [setArg, replaceUsesWith, setInst, if_neg ne, if_neg ne.symm, mk.injEq, and_true]
  funext n
  by_cases here : n = other <;> by_cases there : n = id <;> simp_all

end Program

end Shader.IR

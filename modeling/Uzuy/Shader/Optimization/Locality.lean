import Uzuy.Shader.Optimization.Outcomes
import Uzuy.Shader.Optimization.Commutative
import Uzuy.Shader.IR.WellFormed

/-!
# The pass rewrites instructions in place

A call of `ConstantPropagation` rewrites the instruction it visits and nothing else of the
program, except that the XMAD fold emits one `IMul32` under the next handle, right before the
visited add in its block. So a whole run keeps the order of the blocks and every instruction of
every block in its place, and the only instructions it adds are multiplies, which the folds leave
as they are.
-/

namespace Shader.Optimization

open Shader.IR

/-- What one call of `ConstantPropagation` on the instruction `inst` of `block` may do to the rest
of the program `p`: the other allocated instructions and the block order stay, and either the
arena and the blocks stay, or `inst` is an add and one `IMul32` is emitted under the next handle,
right before `inst`. -/
structure LocalRewrite (p : Program) (block inst : Nat) (p' : Program) : Prop where
  /-- Every other allocated instruction is as it was. -/
  frame : ∀ id < p.count, id ≠ inst → p'.insts id = p.insts id
  /-- The blocks are visited in the same order. -/
  postOrderBlocks : p'.postOrderBlocks = p.postOrderBlocks
  /-- Nothing is emitted, or the visited instruction is an add and an `IMul32` is placed where
  `PrependNewInst` places it. -/
  layout : p'.count = p.count ∧ p'.blocks = p.blocks ∨
    (p.insts inst).op = .iAdd32 ∧ p'.count = p.count + 1 ∧ (p'.insts p.count).op = .iMul32 ∧
      ∃ args, p'.blocks = (p.prependNewInst block inst .iMul32 args).2.blocks

namespace LocalRewrite

variable {p q r : Program} {block inst : Nat}

theorem refl (p : Program) (block inst : Nat) : LocalRewrite p block inst p :=
  ⟨fun _ _ _ => rfl, rfl, .inl ⟨rfl, rfl⟩⟩

/-- Replacing the visited instruction keeps a local rewrite local. -/
theorem setInst (rewrite : LocalRewrite p block inst q) (inArena : inst < p.count) (i : Inst) :
    LocalRewrite p block inst (q.setInst inst i) where
  frame id below ne := (Program.setInst_insts_of_ne _ _ ne).trans (rewrite.frame id below ne)
  postOrderBlocks := rewrite.postOrderBlocks
  layout := rewrite.layout.imp id fun ⟨opcode, count, emitted, blocks⟩ => ⟨opcode, count,
    (congrArg Inst.op (Program.setInst_insts_of_ne _ _ inArena.ne')).trans emitted, blocks⟩

theorem setArg (rewrite : LocalRewrite p block inst q) (inArena : inst < p.count)
    (index : Nat) (value : Value) : LocalRewrite p block inst (q.setArg inst index value) :=
  rewrite.setInst inArena _

theorem replaceUsesWith (rewrite : LocalRewrite p block inst q) (inArena : inst < p.count)
    (value : Value) : LocalRewrite p block inst (q.replaceUsesWith inst value) :=
  rewrite.setInst inArena _

theorem replaceOpcode (rewrite : LocalRewrite p block inst q) (inArena : inst < p.count)
    (op : Opcode) : LocalRewrite p block inst (q.replaceOpcode inst op) :=
  rewrite.setInst inArena _

/-- Emitting an `IMul32` before the visited add is a local rewrite. -/
theorem prependNewInst (opcode : (p.insts inst).op = .iAdd32) (args : List Value) :
    LocalRewrite p block inst (p.prependNewInst block inst .iMul32 args).2 where
  frame _ below _ := Program.prependNewInst_insts_of_ne below.ne
  postOrderBlocks := rfl
  layout := .inr ⟨opcode, rfl, by simp, args, rfl⟩

theorem count_le (rewrite : LocalRewrite p block inst q) : p.count ≤ q.count := by
  rcases rewrite.layout with ⟨count, -⟩ | ⟨-, count, -⟩ <;> omega

private theorem prependNewInst_blocks_congr {op : Opcode} {args : List Value}
    (count : q.count = p.count) (blocks : q.blocks = p.blocks) :
    (q.prependNewInst block inst op args).2.blocks =
      (p.prependNewInst block inst op args).2.blocks := by
  simp only [Program.prependNewInst, count, blocks]

/-- A rewrite of the visited instruction alone that keeps its opcode, followed by a local
rewrite. -/
theorem trans (first : LocalRewrite p block inst q) (count : q.count = p.count)
    (blocks : q.blocks = p.blocks) (op : (q.insts inst).op = (p.insts inst).op)
    (second : LocalRewrite q block inst r) : LocalRewrite p block inst r where
  frame id below ne := (second.frame id (count ▸ below) ne).trans (first.frame id below ne)
  postOrderBlocks := second.postOrderBlocks.trans first.postOrderBlocks
  layout := second.layout.imp (fun ⟨count', blocks'⟩ => ⟨count'.trans count, blocks'.trans blocks⟩)
    fun ⟨opcode, count', emitted, args, blocks'⟩ => ⟨op.symm.trans opcode, count ▸ count',
      count ▸ emitted, args, blocks'.trans (prependNewInst_blocks_congr count blocks)⟩

end LocalRewrite

/-! ## Every fold is local -/

section Folds

variable {T : Type} {p p' p₁ : Program} {block inst : Nat} {notFolded : Bool}

theorem CommutativeStep.localRewrite {type : ArgType T} {immFn : T → T → T}
    (step : CommutativeStep type immFn p inst (notFolded, p₁)) (inArena : inst < p.count) :
    LocalRewrite p block inst p₁ := by
  have refl := LocalRewrite.refl p block inst
  cases step
  case folded => exact refl.replaceUsesWith inArena _
  case merged | swapped => exact (refl.setArg inArena _ _).setArg inArena _ _
  case kept => exact refl

theorem foldAdd_localRewrite [Add T] [OfNat T 0] [DecidableEq T] {type : ArgType T}
    {isU32 : Bool} (xmad : isU32 = true → (p.insts inst).op = .iAdd32) (inArena : inst < p.count)
    (folded : foldAdd type isU32 p block inst = .ok p') : LocalRewrite p block inst p' := by
  rcases foldAdd_cases folded with rfl | ⟨notFolded, p₁, step, rest⟩
  · exact .refl _ _ _
  have first : LocalRewrite p block inst p₁ := step.localRewrite inArena
  have inArena₁ : inst < p₁.count := step.count_eq ▸ inArena
  rcases rest with rfl | ⟨rfl, ⟨-, rfl⟩ | ⟨u32, matched, product⟩⟩
  · exact first
  · exact first.replaceUsesWith inArena _
  cases matched
  · obtain rfl : p' = p₁ := foldXmadMultiply_declined _ product rfl
    exact first
  obtain ⟨m, rfl⟩ := foldXmadMultiply_eq_ok_true product
  exact first.trans step.count_eq (by cases step <;> rfl) step.op_eq
    ((LocalRewrite.prependNewInst (step.op_eq.trans (xmad u32)) _).replaceUsesWith inArena₁ _)

theorem foldLogicalAnd_localRewrite (inArena : inst < p.count)
    (folded : foldLogicalAnd p inst = .ok p') : LocalRewrite p block inst p' := by
  obtain ⟨notFolded, p₁, step, rest⟩ := foldLogicalAnd_cases folded
  have first : LocalRewrite p block inst p₁ := step.localRewrite inArena
  rcases rest with rfl | ⟨-, b, -, rfl⟩
  · exact first
  · cases b <;> exact first.replaceUsesWith inArena _

theorem foldLogicalOr_localRewrite (inArena : inst < p.count)
    (folded : foldLogicalOr p inst = .ok p') : LocalRewrite p block inst p' := by
  obtain ⟨notFolded, p₁, step, rest⟩ := foldLogicalOr_cases folded
  have first : LocalRewrite p block inst p₁ := step.localRewrite inArena
  rcases rest with rfl | ⟨-, b, -, rfl⟩
  · exact first
  · cases b <;> exact first.replaceUsesWith inArena _

/-- A fold through `FoldWhenAllImmediates` replaces the visited instruction or leaves it. -/
theorem foldWhenAllImmediates_localRewrite {func : Program → (Nat → Value) → Except Exception Imm}
    {result : Bool × Program} (inArena : inst < p.count)
    (folded : foldWhenAllImmediates p inst func = .ok result) :
    LocalRewrite p block inst result.2 := by
  rcases foldWhenAllImmediates_cases _ folded with rfl | ⟨imm, -, rfl⟩
  · exact .refl p block inst
  · exact (LocalRewrite.refl p block inst).replaceUsesWith inArena _

/-- Every call of `ConstantPropagation` on an allocated instruction is a local rewrite. -/
theorem constantPropagation_localRewrite (inArena : inst < p.count)
    (folded : constantPropagation p block inst = .ok p') : LocalRewrite p block inst p' := by
  have refl := LocalRewrite.refl p block inst
  have replaced := refl.replaceUsesWith inArena
  have immediates : ∀ {func : Program → (Nat → Value) → Except Exception Imm},
      Prod.snd <$> foldWhenAllImmediates p inst func = .ok p' → LocalRewrite p block inst p' :=
    fun folded => by
      obtain ⟨result, computed, rfl⟩ := map_eq_ok.mp folded
      exact foldWhenAllImmediates_localRewrite inArena computed
  rw [constantPropagation] at folded
  cases opcode : (p.insts inst).op <;> rw [opcode] at folded
  case iAdd32 => exact foldAdd_localRewrite (fun _ => opcode) inArena folded
  case iAdd64 => exact foldAdd_localRewrite (fun u32 => absurd u32 Bool.false_ne_true) inArena folded
  case logicalAnd => exact foldLogicalAnd_localRewrite inArena folded
  case logicalOr => exact foldLogicalOr_localRewrite inArena folded
  case sLessThan | uLessThan | sLessThanEqual | uLessThanEqual | sGreaterThan | uGreaterThan
      | sGreaterThanEqual | uGreaterThanEqual | iEqual | iNotEqual | bitFieldUExtract
      | bitFieldSExtract => exact immediates folded
  case getRegister =>
    rcases foldGetRegister_cases _ folded with rfl | rfl
    exacts [refl, replaced _]
  case getPred =>
    rcases foldGetPred_cases _ folded with rfl | rfl
    exacts [refl, replaced _]
  case iSub32 =>
    rcases foldISub32_cases _ folded with rfl | ⟨_, rfl⟩ | ⟨_, _, _, _, _, rfl⟩
    exacts [refl, replaced _, replaced _]
  case bitCastF32U32 | bitCastU32F32 =>
    rcases foldBitCast_cases _ folded with rfl | ⟨_, _, rfl⟩ | ⟨_, _, ⟨_, rfl⟩ | ⟨_, _, rfl⟩⟩
    exacts [refl, replaced _, replaced _,
      ((refl.replaceOpcode inArena _).setArg inArena _ _).setArg inArena _ _]
  case packHalf2x16 | unpackHalf2x16 =>
    rcases foldInverseFunc_cases _ folded with rfl | ⟨_, _, _, rfl⟩
    exacts [refl, replaced _]
  case select =>
    rcases foldSelect_cases _ folded with rfl | rfl | rfl
    exacts [refl, replaced _, replaced _]
  case fpMul32 =>
    rcases foldFPMul32_cases _ folded with rfl | ⟨_, _, _, rfl⟩
    exacts [refl, replaced _]
  case logicalNot =>
    rcases foldLogicalNot_cases _ folded with rfl | ⟨_, rfl⟩ | ⟨_, _, _, rfl⟩
    exacts [refl, replaced _, replaced _]
  case branchConditional =>
    rcases foldBranchConditional_cases _ folded with rfl | ⟨_, _, _, rfl⟩
    exacts [refl, ((refl.setArg inArena _ _).setArg inArena _ _).setArg inArena _ _]
  case compositeExtract =>
    rcases foldCompositeExtract_cases _ folded with rfl | ⟨_, _, _, _, rfl⟩
    exacts [refl, replaced _]
  all_goals exact pure_eq_ok.mp folded ▸ refl

/-- An `IMul32` is left as it is: `ConstantPropagation` has no case for it. -/
theorem constantPropagation_iMul32 (opcode : (p.insts inst).op = .iMul32) :
    constantPropagation p block inst = .ok p := by
  rw [constantPropagation, opcode]
  rfl

end Folds

/-! ## The whole pass -/

section Pass

variable {p q r : Program} {block before n : Nat} {op : Opcode} {args : List Value}

/-- Dropping the handles from `bound` on, emitting an instruction at or past `bound` leaves every
block as it was. -/
theorem filter_prependNewInst_blocks {bound : Nat} (beyond : bound ≤ q.count) :
    ((q.prependNewInst block before op args).2.blocks n).filter (· < bound) =
      (q.blocks n).filter (· < bound) := by
  have single : ∀ id : Nat, (if id = before then [q.count, id] else [id]).filter (· < bound) =
      [id].filter (· < bound) := fun id => by
    split
    · simp [Nat.not_lt.mpr beyond]
    · rfl
  simp only [Program.prependNewInst]
  split
  · induction q.blocks n with
    | nil => rfl
    | cons id rest ih =>
        rw [List.flatMap_cons, List.filter_append, single, ih, ← List.filter_append]
        rfl
  · rfl

/-- What a run keeps of the program `p` it started from, in the program `q` it has reached. -/
structure KeepsLayout (p q : Program) : Prop where
  /-- The block order. -/
  postOrderBlocks : q.postOrderBlocks = p.postOrderBlocks
  count_le : p.count ≤ q.count
  /-- Blocks of allocated instructions. -/
  allocated : q.Allocated
  /-- Each block's instructions of `p`, in their order. -/
  blocks : ∀ block, (q.blocks block).filter (· < p.count) = p.blocks block
  /-- The instructions past those of `p`, all `IMul32`. -/
  products : ∀ id, p.count ≤ id → id < q.count → (q.insts id).op = .iMul32
  /-- The instructions of `p` that no block lists, as they were. -/
  unlisted : ∀ id < p.count, (∀ block ∈ p.postOrderBlocks, id ∉ p.blocks block) →
    q.insts id = p.insts id

theorem KeepsLayout.start (allocated : p.Allocated) : KeepsLayout p p where
  postOrderBlocks := rfl
  count_le := le_rfl
  allocated := allocated
  blocks block := List.filter_eq_self.mpr fun id member =>
    decide_eq_true (allocated block id member)
  products _ old fresh := absurd fresh (Nat.not_lt.mpr old)
  unlisted _ _ _ := rfl

/-- One call of `ConstantPropagation` on an allocated instruction, listed in a block of `p` if it
is an instruction of `p`, keeps what a run keeps. -/
theorem KeepsLayout.step (keeps : KeepsLayout p q) (inArena : inst < q.count)
    (listed : inst < p.count → ∃ block ∈ p.postOrderBlocks, inst ∈ p.blocks block)
    (folded : constantPropagation q block inst = .ok r) : KeepsLayout p r := by
  by_cases fresh : p.count ≤ inst
  · rw [constantPropagation_iMul32 (keeps.products inst fresh inArena)] at folded
    obtain rfl := Except.ok.inj folded
    exact keeps
  have rewrite := constantPropagation_localRewrite inArena folded
  have grown := keeps.count_le
  have others : ∀ id, p.count ≤ id → id < q.count → (r.insts id).op = .iMul32 :=
    fun id old below => (congrArg Inst.op (rewrite.frame id below (by omega))).trans
      (keeps.products id old below)
  have unlisted : ∀ id < p.count, (∀ block ∈ p.postOrderBlocks, id ∉ p.blocks block) →
      r.insts id = p.insts id := fun id old outside => by
    refine (rewrite.frame id (by omega) fun same => ?_).trans (keeps.unlisted id old outside)
    obtain ⟨block, member, inBlock⟩ := listed (same ▸ old)
    exact outside block member (same ▸ inBlock)
  have order := rewrite.postOrderBlocks.trans keeps.postOrderBlocks
  rcases rewrite.layout with ⟨count, blocks⟩ | ⟨-, count, product, args, blocks⟩
  · refine ⟨order, count ▸ grown, fun block id member => ?_, blocks ▸ keeps.blocks,
      fun id old below => others id old (count ▸ below), unlisted⟩
    exact count ▸ keeps.allocated block id (blocks ▸ member)
  refine ⟨order, by omega, fun n id member => ?_, fun n => ?_, fun id old below => ?_, unlisted⟩
  · rw [blocks] at member
    rcases Program.mem_prependNewInst_blocks member with member | rfl
    · exact count ▸ Nat.lt_succ_of_lt (keeps.allocated n id member)
    · omega
  · rw [blocks, filter_prependNewInst_blocks grown, keeps.blocks]
  · rcases Nat.lt_or_ge id q.count with below | edge
    · exact others id old below
    · obtain rfl : id = q.count := by omega
      exact product

/-- `ConstantPropagationPass` on a program whose blocks list allocated instructions keeps the
order of the blocks, keeps the instructions of every block in their order, and adds only
instructions past the arena, all of them `IMul32`: dropping those from a block gives the block
back as it was. An instruction that no block lists is left as it was, and each call of
`ConstantPropagation` changes only the instruction it visits, apart from the `IMul32` the XMAD
fold emits right before a visited add. -/
theorem constantPropagationPass_keeps_blocks (allocated : p.Allocated)
    (passed : constantPropagationPass p = .ok p') :
    p'.postOrderBlocks = p.postOrderBlocks ∧ p.count ≤ p'.count ∧
      (∀ block, (p'.blocks block).filter (· < p.count) = p.blocks block) ∧
      (∀ id, p.count ≤ id → id < p'.count → (p'.insts id).op = .iMul32) ∧
      (∀ id < p.count, (∀ block ∈ p.postOrderBlocks, id ∉ p.blocks block) →
        p'.insts id = p.insts id) ∧
      ∀ (q q' : Program) (block inst : Nat), inst < q.count →
        constantPropagation q block inst = .ok q' → LocalRewrite q block inst q' := by
  suffices keeps : KeepsLayout p p' from ⟨keeps.postOrderBlocks, keeps.count_le, keeps.blocks,
    keeps.products, keeps.unlisted, fun _ _ _ _ => constantPropagation_localRewrite⟩
  unfold constantPropagationPass at passed
  refine foldlM_invariant (fun q keeps block listed q' swept => ?_) p (.start allocated) p' passed
  have visit : ∀ r, KeepsLayout p r ∧ q.count ≤ r.count → ∀ inst ∈ q.blocks block,
      ∀ r', constantPropagation r block inst = .ok r' → KeepsLayout p r' ∧ q.count ≤ r'.count := by
    rintro r ⟨keepsR, grown⟩ inst member r' folded
    have inArena := Nat.lt_of_lt_of_le (keeps.allocated block inst member) grown
    refine ⟨keepsR.step inArena (fun old => ⟨block, List.mem_reverse.mp listed, ?_⟩) folded,
      grown.trans (constantPropagation_localRewrite inArena folded).count_le⟩
    rw [← keeps.blocks block]
    exact List.mem_filter.mpr ⟨member, decide_eq_true old⟩
  exact (foldlM_invariant visit q ⟨keeps, le_rfl⟩ q' swept).1

/-- On `xmadProduct` the pass emits the product `%8 = IMul32 %0, %1` before the add `%7`. -/
theorem xmadProduct_pass_keeps_blocks :
    xmadProduct.Allocated ∧ constantPropagationPass xmadProduct = .ok xmadProductFolded ∧
      xmadProductFolded.postOrderBlocks = xmadProduct.postOrderBlocks ∧
      xmadProduct.count ≤ xmadProductFolded.count ∧
      (∀ block, (xmadProductFolded.blocks block).filter (· < xmadProduct.count) =
        xmadProduct.blocks block) ∧
      (∀ id, xmadProduct.count ≤ id → id < xmadProductFolded.count →
        (xmadProductFolded.insts id).op = .iMul32) ∧
      (∀ id < xmadProduct.count, (∀ block ∈ xmadProduct.postOrderBlocks,
        id ∉ xmadProduct.blocks block) → xmadProductFolded.insts id = xmadProduct.insts id) ∧
      ∀ (q q' : Program) (block inst : Nat), inst < q.count →
        constantPropagation q block inst = .ok q' → LocalRewrite q block inst q' :=
  have allocated : xmadProduct.Allocated := fun _ _ member => List.mem_range.mp member
  ⟨allocated, rfl, constantPropagationPass_keeps_blocks allocated rfl⟩

end Pass

end Shader.Optimization

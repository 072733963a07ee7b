import Uzuy.Shader.IR.Rewrite

/-!
# Well-formed programs

The programs the pass is given are in SSA form: every operand of an instruction other than a phi
is defined by an instruction that strictly dominates it. The pass never looks at the control-flow
graph, and all it uses of dominance is that it is a strict order, so dominance is any relation
with those two laws. A well-formed program is typed, closed and in SSA form, its extracts take
immediate lane indices below their lane count, and its blocks list allocated instructions. Where
the place of an emitted instruction matters, the dominance is also asked to order every block as
a basic block is ordered: an instruction dominates those after it (`OrdersBlocks`).

The folds change a program in three ways: they replace one instruction, they make one an
`Identity` of a value, and the XMAD fold emits a new instruction right before the one it visits.
Each keeps the program well formed when what it installs is typed and available where it is
used; the emitted instruction extends the types and the dominance.
-/

namespace Shader.IR

/-- Modelled from the spec: strict dominance between instructions, `dominates a b` when the
definition of `a` strictly dominates instruction `b`. The program does not record it; a
well-formed program is well formed under some dominance, and `OrdersBlocks` ties one to the
order of the blocks. -/
structure Dominance where
  /-- The relation. -/
  dominates : Nat → Nat → Prop
  /-- Dominance is transitive. -/
  trans : ∀ {a b c}, dominates a b → dominates b c → dominates a c
  /-- No instruction strictly dominates itself. -/
  irrefl : ∀ a, ¬dominates a a

namespace Dominance

/-- The dominance of a program of one block: an instruction dominates those after it. -/
def straightLine : Dominance where
  dominates a b := a < b
  trans := Nat.lt_trans
  irrefl := Nat.lt_irrefl

/-- The dominance once `fresh` is placed right before `before`: `fresh` is dominated by what
dominates `before`, and dominates `before` and what `before` dominates. -/
def insertBefore (D : Dominance) (fresh before : Nat) : Dominance where
  dominates a b :=
    a ≠ fresh ∧ b ≠ fresh ∧ D.dominates a b ∨
      a ≠ fresh ∧ b = fresh ∧ D.dominates a before ∨
      a = fresh ∧ b ≠ fresh ∧ (b = before ∨ D.dominates before b)
  trans := by
    rintro a b c (⟨ha, hb, ab⟩ | ⟨ha, hb, ab⟩ | ⟨ha, hb, ab⟩)
      (⟨hb', hc, bc⟩ | ⟨hb', hc, bc⟩ | ⟨hb', hc, bc⟩)
    · exact .inl ⟨ha, hc, D.trans ab bc⟩
    · exact .inr (.inl ⟨ha, hc, D.trans ab bc⟩)
    · exact absurd hb' hb
    · exact absurd hb hb'
    · exact absurd hb hb'
    · rcases bc with rfl | bc
      · exact .inl ⟨ha, hc, ab⟩
      · exact .inl ⟨ha, hc, D.trans ab bc⟩
    · rcases ab with rfl | ab
      · exact .inr (.inr ⟨ha, hc, .inr bc⟩)
      · exact .inr (.inr ⟨ha, hc, .inr (D.trans ab bc)⟩)
    · rcases ab with rfl | ab
      · exact absurd bc (D.irrefl _)
      · exact absurd (D.trans ab bc) (D.irrefl _)
    · exact absurd hb' hb
  irrefl a := by
    rintro (⟨-, -, aa⟩ | ⟨ne, eq, -⟩ | ⟨eq, ne, -⟩)
    · exact D.irrefl a aa
    · exact ne eq
    · exact ne eq

theorem insertBefore_dominates_iff {D : Dominance} {fresh before a b : Nat} (ha : a ≠ fresh)
    (hb : b ≠ fresh) : (D.insertBefore fresh before).dominates a b ↔ D.dominates a b := by
  simp [insertBefore, ha, hb]

/-- Placing `fresh` right before each `before` in a list ordered by `D` gives a list ordered by the
dominance that places `fresh` right before `before`. -/
theorem pairwise_insertBefore {D : Dominance} {fresh before : Nat} {l : List Nat}
    (ordered : l.Pairwise D.dominates) (old : ∀ id ∈ l, id ≠ fresh) :
    (l.flatMap fun id => if id = before then [fresh, id] else [id]).Pairwise
      (D.insertBefore fresh before).dominates := by
  induction l with
  | nil => exact .nil
  | cons x rest ih =>
    rw [List.pairwise_cons] at ordered
    have x_old := old x (List.mem_cons_self _ _)
    rw [List.flatMap_cons, List.pairwise_append]
    refine ⟨?_, ih ordered.2 fun id member => old id (List.mem_cons_of_mem _ member),
      fun a first b later => ?_⟩
    · split
      · exact List.pairwise_pair.mpr (Or.inr (Or.inr ⟨rfl, x_old, .inl ‹_›⟩))
      · exact List.pairwise_singleton _ _
    obtain ⟨y, member, later⟩ := List.mem_flatMap.mp later
    have y_old := old y (List.mem_cons_of_mem _ member)
    have xy := ordered.1 y member
    rcases Program.mem_prepended first with rfl | ⟨rfl, rfl⟩ <;>
      rcases Program.mem_prepended later with rfl | ⟨rfl, rfl⟩
    · exact .inl ⟨x_old, y_old, xy⟩
    · exact .inr (.inl ⟨x_old, rfl, xy⟩)
    · exact .inr (.inr ⟨rfl, y_old, .inr xy⟩)
    · exact absurd xy (D.irrefl _)

end Dominance

/-- A value is available at instruction `user`: an immediate, or defined by an instruction that
dominates `user`. -/
def Value.AvailableAt (D : Dominance) (user : Nat) : Value → Prop
  | .imm _ => True
  | .inst id => D.dominates id user

theorem Value.AvailableAt.of_dominates {D : Dominance} {value : Value} {a b : Nat}
    (available : value.AvailableAt D a) (dominates : D.dominates a b) : value.AvailableAt D b := by
  cases value with
  | imm => trivial
  | inst id => exact D.trans available dominates

theorem Value.RefersBelow.mono {value : Value} {count count' : Nat} (below : value.RefersBelow count)
    (le : count ≤ count') : value.RefersBelow count' := by
  cases value with
  | imm => trivial
  | inst id => exact Nat.lt_of_lt_of_le below le

theorem Value.typeIn_update_of_refersBelow {Γ : Nat → Ty} {count : Nat} {value : Value}
    (below : value.RefersBelow count) (type : Ty) :
    value.typeIn (Function.update Γ count type) = value.typeIn Γ := by
  cases value with
  | imm => rfl
  | inst id => exact Function.update_noteq (Nat.ne_of_lt below) _ _

/-- An opcode other than `Identity` and a phi: its arguments have the types it lists. -/
def Opcode.isPlain : Opcode → Bool
  | .identity | .phi _ => false
  | _ => true

theorem Opcode.ne_identity_of_isPlain {op : Opcode} (plain : op.isPlain) : op ≠ .identity := by
  rintro rfl
  exact absurd plain (by decide)

theorem Opcode.ne_phi_of_isPlain {op : Opcode} (plain : op.isPlain) (type : Ty) :
    op ≠ .phi type := by
  rintro rfl
  exact absurd plain (by simp [isPlain])

namespace Program

variable (p : Program)

/-- Modelled from the spec: `p` is in SSA form under `D`. Every operand of an instruction other
than a phi is available at it. -/
def Dominated (D : Dominance) : Prop :=
  ∀ id, (∀ type, (p.insts id).op ≠ .phi type) → ∀ value ∈ (p.insts id).args,
    value.AvailableAt D id

/-- Every `CompositeExtract` takes an immediate lane index below its lane count. -/
def ExtractsInRange : Prop :=
  ∀ id type, (p.insts id).op = .compositeExtract type →
    ∃ index : BitVec 32, (p.insts id).arg 1 = .imm (.u32 index) ∧ index.toNat < type.lanes

/-- Every block lists allocated instructions. -/
def Allocated : Prop :=
  ∀ block, ∀ id ∈ p.blocks block, id < p.count

/-- Modelled from the spec: the dominance orders every block, each instruction dominating those
listed after it, as in a basic block of an SSA program. -/
def OrdersBlocks (D : Dominance) : Prop :=
  ∀ block, (p.blocks block).Pairwise D.dominates

/-- Modelled from the spec: a well-formed program, under the types `Γ` and the dominance `D`. -/
structure WellFormed (Γ : Nat → Ty) (D : Dominance) : Prop where
  /-- Every operand has the type its opcode expects. -/
  typed : p.WellTyped Γ
  /-- Every operand refers to an allocated instruction. -/
  closed : p.Closed
  /-- Every operand of an instruction other than a phi dominates it. -/
  dominated : p.Dominated D
  /-- Every extract's lane index is an immediate below the lane count. -/
  extractsInRange : p.ExtractsInRange
  /-- Every block lists allocated instructions. -/
  allocated : p.Allocated

/-- `p'` is well formed under types and a dominance that agree with `Γ` and `D` on the
instructions of `p`; it may have more. -/
def WellFormedAfter (Γ : Nat → Ty) (D : Dominance) (p' : Program) : Prop :=
  p.count ≤ p'.count ∧ ∃ Γ' D', p'.WellFormed Γ' D' ∧ (∀ id < p.count, Γ' id = Γ id) ∧
    ∀ a < p.count, ∀ b < p.count, D'.dominates a b ↔ D.dominates a b

variable {p} {Γ : Nat → Ty} {D : Dominance} {id user : Nat}

/-! ## Reads -/

theorem Dominated.arg (dominated : p.Dominated D) (notPhi : ∀ type, (p.insts id).op ≠ .phi type)
    (index : Nat) : ((p.insts id).arg index).AvailableAt D id := by
  rcases (p.insts id).arg_mem_or_void index with member | void
  · exact dominated id notPhi _ member
  · rw [void]
    trivial

/-- Following `Identity` chains from a value available at `user` ends at one available there:
an `Identity` is dominated by its argument. -/
theorem Dominated.resolveWith (dominated : p.Dominated D) {fuel : Nat} {value result : Value}
    (available : value.AvailableAt D user) (resolved : resolveWith p.insts fuel value = .ok result) :
    result.AvailableAt D user :=
  resolveWith_of_step (fun _ identity available =>
    (dominated.arg (by simp [identity]) 0).of_dominates available) available resolved

/-- An instruction that an operand of `user` resolves to dominates `user`. -/
theorem Dominated.resolve_arg (dominated : p.Dominated D)
    (notPhi : ∀ type, (p.insts user).op ≠ .phi type) {index d : Nat}
    (resolved : p.resolve ((p.insts user).arg index) = .ok (.inst d)) : D.dominates d user :=
  dominated.resolveWith (dominated.arg notPhi index) resolved

theorem WellTyped.typeIn_arg (typed : p.WellTyped Γ) {op : Opcode} (opcode : (p.insts id).op = op)
    (plain : op.isPlain) (index : Nat) :
    ((p.insts id).arg index).typeIn Γ = op.argTypes.getD index .void := by
  have typing := ((typedAt_iff (opcode ▸ Opcode.ne_identity_of_isPlain plain)
    (opcode ▸ Opcode.ne_phi_of_isPlain plain)).mp (typed id)).2
  rw [opcode] at typing
  rw [← typing, Inst.arg]
  exact (List.getD_map _ _ _).symm

theorem WellTyped.resultType (typed : p.WellTyped Γ) {op : Opcode} (opcode : (p.insts id).op = op)
    (plain : op.isPlain) : Γ id = op.resultType := by
  have typing := ((typedAt_iff (opcode ▸ Opcode.ne_identity_of_isPlain plain)
    (opcode ▸ Opcode.ne_phi_of_isPlain plain)).mp (typed id)).1
  rwa [opcode] at typing

/-- In an execution whose instructions have their types, an operand of a typed, closed program
has the type its opcode expects. -/
theorem WellTyped.arg_hasType (typed : p.WellTyped Γ) (closed : p.Closed) {ρ : Nat → Datum}
    (typedBelow : ∀ id < p.count, (ρ id).HasType (Γ id)) {op : Opcode}
    (opcode : (p.insts id).op = op) (plain : op.isPlain) (index : Nat) :
    (((p.insts id).arg index).denote ρ).HasType (op.argTypes.getD index .void) :=
  typed.typeIn_arg opcode plain index ▸
    Value.denote_hasType_of_refersBelow typedBelow (closed.arg id index)

/-- The typing of an instruction reads only the instruction, its type and its operands' types. -/
theorem typedAt_congr {q : Program} {Γ' : Nat → Ty} (insts : q.insts id = p.insts id)
    (same : Γ' id = Γ id)
    (operands : ∀ value ∈ (p.insts id).args, value.typeIn Γ' = value.typeIn Γ) :
    q.TypedAt Γ' id ↔ p.TypedAt Γ id := by
  unfold TypedAt
  rw [insts, List.map_congr_left operands, same]
  split
  · rfl
  · exact and_congr_right fun _ => forall₂_congr fun value member => by rw [operands value member]
  · rfl

theorem WellTyped.args_length (typed : p.WellTyped Γ) {op : Opcode} (opcode : (p.insts id).op = op)
    (plain : op.isPlain) : (p.insts id).args.length = op.argTypes.length := by
  have typing := ((typedAt_iff (opcode ▸ Opcode.ne_identity_of_isPlain plain)
    (opcode ▸ Opcode.ne_phi_of_isPlain plain)).mp (typed id)).2
  rw [opcode] at typing
  rw [← typing, List.length_map]

/-- An instruction other than an `Identity` or a phi is typed when it has its opcode's result type
and its operands the types its opcode lists. -/
theorem typedAt_setInst_self {inst : Inst} (plain : inst.op.isPlain)
    (result : Γ id = inst.op.resultType) (typing : inst.args.map (Value.typeIn Γ) = inst.op.argTypes) :
    (p.setInst id inst).TypedAt Γ id :=
  (typedAt_iff (by simp [Opcode.ne_identity_of_isPlain plain])
    (by simp [Opcode.ne_phi_of_isPlain plain])).mpr (by simpa using ⟨result, typing⟩)

/-! ## Updates -/

namespace WellFormed

variable (wf : p.WellFormed Γ D)
include wf

/-- Replacing one instruction keeps a program well formed when the new instruction is typed, its
operands are allocated and available at it, and it is not an extract with a bad index. -/
theorem setInst {inst : Inst} (typedAt : (p.setInst id inst).TypedAt Γ id)
    (available : (∀ type, inst.op ≠ .phi type) → ∀ value ∈ inst.args, value.AvailableAt D id)
    (bounded : ∀ value ∈ inst.args, value.RefersBelow p.count)
    (inRange : ∀ type, inst.op = .compositeExtract type →
      ∃ index : BitVec 32, inst.arg 1 = .imm (.u32 index) ∧ index.toNat < type.lanes) :
    (p.setInst id inst).WellFormed Γ D where
  typed := wf.typed.setInst typedAt
  closed := wf.closed.setInst bounded
  dominated other notPhi := by
    by_cases here : other = id
    · subst here
      simp only [setInst_insts_self] at notPhi ⊢
      exact available notPhi
    · rw [setInst_insts_of_ne _ _ here] at notPhi ⊢
      exact wf.dominated other notPhi
  extractsInRange other type := by
    by_cases here : other = id
    · subst here
      simpa using inRange type
    · rw [setInst_insts_of_ne _ _ here]
      exact wf.extractsInRange other type
  allocated := wf.allocated

/-- `setInst` for an instruction other than an `Identity`, a phi or an extract. -/
theorem setInst_of_typing {inst : Inst} (plain : inst.op.isPlain)
    (notExtract : ∀ type, inst.op ≠ .compositeExtract type) (result : Γ id = inst.op.resultType)
    (typing : inst.args.map (Value.typeIn Γ) = inst.op.argTypes)
    (available : ∀ value ∈ inst.args, value.AvailableAt D id)
    (bounded : ∀ value ∈ inst.args, value.RefersBelow p.count) :
    (p.setInst id inst).WellFormed Γ D :=
  wf.setInst (typedAt_setInst_self plain result typing) (fun _ => available) bounded
    fun type extract => absurd extract (notExtract type)

/-- Making an instruction an `Identity` of a value keeps a program well formed when the value
has the instruction's type and is allocated and available at it. -/
theorem replaceUsesWith {value : Value} (typed : value.typeIn Γ = Γ id)
    (available : value.AvailableAt D id) (below : value.RefersBelow p.count) :
    (p.replaceUsesWith id value).WellFormed Γ D :=
  wf.setInst (by simpa [TypedAt] using typed) (by simpa using available) (by simpa using below)
    (by simp)

theorem replaceUsesWith_imm {imm : Imm} (typed : imm.type = Γ id) :
    (p.replaceUsesWith id (.imm imm)).WellFormed Γ D :=
  wf.replaceUsesWith typed trivial trivial

/-- Making `user` an `Identity` of an argument of `d`, the instruction itself or one that
dominates it, keeps a program well formed when the argument has `user`'s type. -/
theorem replaceUsesWith_arg {d : Nat} (dominates : d = user ∨ D.dominates d user) {op : Opcode}
    (opcode : (p.insts d).op = op) (plain : op.isPlain) {index : Nat}
    (typed : op.argTypes.getD index .void = Γ user) :
    (p.replaceUsesWith user ((p.insts d).arg index)).WellFormed Γ D := by
  have available := wf.dominated.arg (opcode ▸ Opcode.ne_phi_of_isPlain plain) index
  refine wf.replaceUsesWith ((wf.typed.typeIn_arg opcode plain index).trans typed) ?_
    (wf.closed.arg d index)
  rcases dominates with rfl | dominates
  · exact available
  · exact available.of_dominates dominates

theorem resolve_available {value result : Value} (available : value.AvailableAt D user)
    (resolved : p.resolve value = .ok result) : result.AvailableAt D user :=
  wf.dominated.resolveWith available resolved

/-- Emitting an instruction before `before`, with operands allocated and available there and of
the types its opcode expects, keeps a program well formed: the new instruction gets its result
type and is placed in the dominance right before `before`. -/
theorem prependNewInst {before : Nat} (block : Nat) {op : Opcode}
    {args : List Value} (plain : op.isPlain) (notExtract : ∀ type, op ≠ .compositeExtract type)
    (typing : args.map (Value.typeIn Γ) = op.argTypes)
    (available : ∀ value ∈ args, value.AvailableAt D before)
    (bounded : ∀ value ∈ args, value.RefersBelow p.count) :
    (p.prependNewInst block before op args).2.WellFormed
      (Function.update Γ p.count op.resultType) (D.insertBefore p.count before) := by
  have old : ∀ other, other ≠ p.count →
      (p.prependNewInst block before op args).2.insts other = p.insts other :=
    fun _ ne => Program.prependNewInst_insts_of_ne ne
  have fresh := p.prependNewInst_insts_self block before op args
  have retype : ∀ value : Value, value.RefersBelow p.count →
      value.typeIn (Function.update Γ p.count op.resultType) = value.typeIn Γ :=
    fun _ below => Value.typeIn_update_of_refersBelow below _
  refine ⟨?_, ?_, ?_, ?_, ?_⟩
  · intro other
    by_cases here : other = p.count
    · subst here
      rw [typedAt_iff (by simp [fresh, Opcode.ne_identity_of_isPlain plain])
        (by simp [fresh, Opcode.ne_phi_of_isPlain plain]), fresh]
      refine ⟨Function.update_same _ _ _, ?_⟩
      rw [← typing]
      exact List.map_congr_left fun value member => retype value (bounded value member)
    · exact (typedAt_congr (old other here) (Function.update_noteq here _ _)
        fun value member => retype value (wf.closed other value member)).mpr (wf.typed other)
  · intro other
    by_cases here : other = p.count
    · subst here
      rw [fresh]
      exact fun value member => (bounded value member).mono (Nat.le_succ _)
    · rw [old other here]
      exact fun value member => (wf.closed other value member).mono (Nat.le_succ _)
  · intro other notPhi
    by_cases here : other = p.count
    · subst here
      rw [fresh] at notPhi ⊢
      intro value member
      cases value with
      | imm => trivial
      | inst a => exact .inr (.inl ⟨Nat.ne_of_lt (bounded _ member), rfl, available _ member⟩)
    · rw [old other here] at notPhi ⊢
      intro value member
      cases value with
      | imm => trivial
      | inst a =>
          exact .inl ⟨Nat.ne_of_lt (wf.closed other _ member), here,
            wf.dominated other notPhi _ member⟩
  · intro other type
    by_cases here : other = p.count
    · subst here
      rw [fresh]
      exact fun extract => absurd extract (notExtract type)
    · rw [old other here]
      exact wf.extractsInRange other type
  · intro block' id member
    rcases Program.mem_prependNewInst_blocks member with member | rfl
    · exact Nat.lt_succ_of_lt (wf.allocated _ _ member)
    · exact Nat.lt_succ_self _

end WellFormed

/-! ## Block order -/

/-- Blocks of allocated instructions stay ordered under a dominance that agrees on the arena. -/
theorem OrdersBlocks.of_agree {D' : Dominance} (ordered : p.OrdersBlocks D)
    (allocated : p.Allocated)
    (agree : ∀ a < p.count, ∀ b < p.count, D'.dominates a b ↔ D.dominates a b) :
    p.OrdersBlocks D' := fun n =>
  (ordered n).imp_of_mem fun first later dominates =>
    (agree _ (allocated n _ first) _ (allocated n _ later)).mpr dominates

/-- An instruction emitted before `before` keeps the blocks ordered, under the dominance that
places it right before `before`. -/
theorem OrdersBlocks.prependNewInst (ordered : p.OrdersBlocks D) (allocated : p.Allocated)
    (block before : Nat) (op : Opcode) (args : List Value) :
    (p.prependNewInst block before op args).2.OrdersBlocks (D.insertBefore p.count before) := by
  intro n
  simp only [Program.prependNewInst]
  split
  · exact Dominance.pairwise_insertBefore (ordered n) fun id member =>
      Nat.ne_of_lt (allocated n id member)
  · exact (ordered n).imp_of_mem fun first later dominates =>
      (Dominance.insertBefore_dominates_iff (Nat.ne_of_lt (allocated n _ first))
        (Nat.ne_of_lt (allocated n _ later))).mpr dominates

/-! ## Runs -/

theorem WellFormedAfter.of_wellFormed {p' : Program} (wf : p'.WellFormed Γ D)
    (count : p'.count = p.count) : p.WellFormedAfter Γ D p' :=
  ⟨count.ge, Γ, D, wf, fun _ _ => rfl, fun _ _ _ _ => Iff.rfl⟩

theorem WellFormedAfter.trans {p₁ p₂ : Program} (first : p.WellFormedAfter Γ D p₁)
    (next : ∀ Γ₁ D₁, p₁.WellFormed Γ₁ D₁ → p₁.WellFormedAfter Γ₁ D₁ p₂) :
    p.WellFormedAfter Γ D p₂ := by
  obtain ⟨le₁, Γ₁, D₁, wf₁, types₁, dominance₁⟩ := first
  obtain ⟨le₂, Γ₂, D₂, wf₂, types₂, dominance₂⟩ := next Γ₁ D₁ wf₁
  refine ⟨le₁.trans le₂, Γ₂, D₂, wf₂, fun id below => ?_, fun a ha b hb => ?_⟩
  · rw [types₂ id (Nat.lt_of_lt_of_le below le₁), types₁ id below]
  · rw [dominance₂ a (Nat.lt_of_lt_of_le ha le₁) b (Nat.lt_of_lt_of_le hb le₁), dominance₁ a ha b hb]

end Program

end Shader.IR

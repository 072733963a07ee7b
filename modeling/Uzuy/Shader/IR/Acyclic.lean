import Uzuy.Shader.IR.WellFormed
import Mathlib.Data.List.Chain
import Mathlib.Logic.Relation

/-!
# Acyclic programs

An instruction other than a phi uses the instructions its operands name; an `Identity` uses its
argument, so the chains that `Value::Resolve` follows are chains of uses. In SSA form these uses
never close a cycle: an operand of such an instruction dominates it, and dominance is a strict
order. A phi's operands may be defined later, on a back edge, so its uses are left out.

In a closed acyclic program a chain of uses passes each instruction at most once, so it is
shorter than the arena. The walks bounded by the arena's size therefore never run out:
`Value::Resolve` returns on every value of the program.
-/

namespace Shader.IR

theorem Inst.mem_args_of_arg_eq_inst {inst : Inst} {index id : Nat}
    (arg : inst.arg index = .inst id) : Value.inst id ∈ inst.args :=
  (inst.arg_mem_or_void index).elim (arg ▸ ·) fun void => nomatch arg.symm.trans void

namespace Program

variable (p : Program)

/-- Modelled from the spec: instruction `user`, which is not a phi, has instruction `used` as an
operand. -/
def Uses (user used : Nat) : Prop :=
  (∀ type, (p.insts user).op ≠ .phi type) ∧ Value.inst used ∈ (p.insts user).args

/-- Modelled from the spec: the def-use graph outside phis, `Identity` chains included, is
acyclic: no instruction depends on itself. -/
def Acyclic : Prop :=
  ∀ id, ¬Relation.TransGen p.Uses id id

variable {p}

theorem Uses.of_arg {user used index : Nat} (notPhi : ∀ type, (p.insts user).op ≠ .phi type)
    (arg : (p.insts user).arg index = .inst used) : p.Uses user used :=
  ⟨notPhi, Inst.mem_args_of_arg_eq_inst arg⟩

/-- In a closed program every instruction something depends on is allocated. -/
theorem Closed.lt_of_transGen (closed : p.Closed) {user used : Nat}
    (path : Relation.TransGen p.Uses user used) : used < p.count := by
  cases path with
  | single uses => exact closed _ _ uses.2
  | tail _ uses => exact closed _ _ uses.2

/-- In a closed acyclic program a chain of dependencies from an allocated instruction passes
fewer instructions than there are. -/
theorem Acyclic.length_lt (acyclic : p.Acyclic) (closed : p.Closed) {id : Nat} {ids : List Nat}
    (below : id < p.count) (chain : List.Chain (Relation.TransGen p.Uses) id ids) :
    ids.length < p.count := by
  have pairwise := List.chain_iff_pairwise.mp chain
  have nodup : (id :: ids).Nodup :=
    pairwise.imp fun {a _} path => by rintro rfl; exact acyclic a path
  have within : id :: ids ⊆ List.range p.count := by
    intro other member
    rcases List.mem_cons.mp member with rfl | later
    · exact List.mem_range.mpr below
    · exact List.mem_range.mpr
        (closed.lt_of_transGen ((List.pairwise_cons.mp pairwise).1 _ later))
  simpa using (List.subperm_of_subset nodup within).length_le

/-- A walk through `Identity` chains from an instruction either returns within `fuel` steps or
passes a chain of `fuel` uses. -/
theorem resolveWith_ok_or_chain (fuel id : Nat) :
    (∃ result, resolveWith p.insts fuel (.inst id) = .ok result) ∨
      ∃ ids, ids.length = fuel ∧ List.Chain p.Uses id ids := by
  induction fuel generalizing id with
  | zero =>
      by_cases identity : (p.insts id).op = .identity
      · exact .inr ⟨[], rfl, .nil⟩
      · exact .inl ⟨.inst id, by simp [resolveWith, identity]⟩
  | succ fuel ih =>
      by_cases identity : (p.insts id).op = .identity
      swap
      · exact .inl ⟨.inst id, by simp [resolveWith, identity]⟩
      have notPhi : ∀ type, (p.insts id).op ≠ .phi type :=
        fun _ phi => nomatch identity.symm.trans phi
      cases arg : (p.insts id).arg 0 with
      | imm imm => exact .inl ⟨.imm imm, by simp [resolveWith, identity, arg]⟩
      | inst next =>
          rcases ih next with ⟨result, resolved⟩ | ⟨ids, length, chain⟩
          · exact .inl ⟨result, by simpa [resolveWith, identity, arg] using resolved⟩
          · exact .inr
              ⟨next :: ids, congrArg (· + 1) length, .cons (.of_arg notPhi arg) chain⟩

/-- `Value::Resolve` returns on every value of a closed acyclic program. -/
theorem Acyclic.resolve_ok (acyclic : p.Acyclic) (closed : p.Closed) {value : Value}
    (below : value.RefersBelow p.count) : ∃ result, p.resolve value = .ok result := by
  cases value with
  | imm imm => exact ⟨_, resolve_imm imm⟩
  | inst id =>
      refine (resolveWith_ok_or_chain p.count id).resolve_right ?_
      rintro ⟨ids, length, chain⟩
      exact (acyclic.length_lt closed below (chain.imp fun _ _ => .single)).ne length

/-- An operand of an instruction other than a phi resolves to an instruction that the instruction
depends on. -/
theorem transGen_of_resolve_arg {user used index : Nat}
    (notPhi : ∀ type, (p.insts user).op ≠ .phi type)
    (resolved : p.resolve ((p.insts user).arg index) = .ok (.inst used)) :
    Relation.TransGen p.Uses user used := by
  cases arg : (p.insts user).arg index with
  | imm imm => simp [arg] at resolved
  | inst operand =>
      rw [arg] at resolved
      refine .head' (.of_arg notPhi arg) (resolveWith_of_step
        (P := fun x => ∀ id, x = .inst id → Relation.ReflTransGen p.Uses operand id)
        (fun id identity reaches next arg' => (reaches id rfl).tail (.of_arg ?_ arg'))
        (fun _ same => Value.inst.inj same ▸ .refl) resolved used rfl)
      exact fun _ phi => nomatch identity.symm.trans phi

/-- In SSA form no instruction depends on itself: an instruction used outside a phi dominates
its user. -/
theorem Dominated.acyclic {D : Dominance} (dominated : p.Dominated D) : p.Acyclic := by
  have dominates :
      ∀ {user used}, Relation.TransGen p.Uses user used → D.dominates used user := by
    intro user used path
    induction path with
    | single uses => exact dominated _ uses.1 _ uses.2
    | tail _ uses ih => exact D.trans (dominated _ uses.1 _ uses.2) ih
  exact fun id cycle => D.irrefl id (dominates cycle)

theorem WellFormed.acyclic {Γ : Nat → Ty} {D : Dominance} (wf : p.WellFormed Γ D) : p.Acyclic :=
  wf.dominated.acyclic

/-- Every operand of a well-formed program resolves. -/
theorem WellFormed.arg_resolves {Γ : Nat → Ty} {D : Dominance} (wf : p.WellFormed Γ D)
    (id index : Nat) : ∃ result, p.resolve ((p.insts id).arg index) = .ok result :=
  wf.acyclic.resolve_ok wf.closed (wf.closed.arg id index)

end Program

end Shader.IR

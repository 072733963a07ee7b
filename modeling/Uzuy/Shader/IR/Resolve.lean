import Uzuy.Shader.IR.Semantics

/-!
# Following `Identity` chains

What `Value::Resolve` and the reads built on it return, what the resolved value denotes under a
valuation of an execution, its type, and which updates of the arena leave a resolution as it was.
-/

namespace Shader.IR

section Except

variable {ε α β : Type}

@[simp]
theorem bind_eq_ok {x : Except ε α} {f : α → Except ε β} {b : β} :
    x >>= f = .ok b ↔ ∃ a, x = .ok a ∧ f a = .ok b := by
  cases x <;> simp [bind, Except.bind]

@[simp]
theorem ok_bind (a : α) (f : α → Except ε β) : (Except.ok a : Except ε α) >>= f = f a := rfl

@[simp]
theorem pure_eq_ok {a b : α} : (pure a : Except ε α) = .ok b ↔ a = b := by
  simp [pure, Except.pure]

@[simp]
theorem map_eq_ok {x : Except ε α} {f : α → β} {b : β} :
    f <$> x = .ok b ↔ ∃ a, x = .ok a ∧ f a = b := by
  cases x <;> simp [Functor.map, Except.map]

theorem ite_pure_eq_ok {c : Prop} [Decidable c] {a b : α} {y : Except ε α} :
    (if c then pure a else y) = .ok b ↔ c ∧ a = b ∨ ¬c ∧ y = .ok b := by
  split <;> simp_all

@[simp]
theorem throw_ne_ok {e : ε} {a : α} : (throw e : Except ε α) ≠ .ok a := by
  simp [throw, throwThe, MonadExceptOf.throw]

/-! A property of every value a computation can return, assembled along its binds and branches. -/

theorem forall_ok_bind {x : Except ε α} {f : α → Except ε β} {P : β → Prop}
    (next : ∀ a b, f a = .ok b → P b) : ∀ b, x >>= f = .ok b → P b := fun b returned => by
  obtain ⟨a, -, returned⟩ := bind_eq_ok.mp returned
  exact next a b returned

theorem forall_ok_ite {c : Prop} [Decidable c] {x y : Except ε α} {P : α → Prop}
    (onTrue : ∀ b, x = .ok b → P b) (onFalse : ∀ b, y = .ok b → P b) :
    ∀ b, (if c then x else y) = .ok b → P b := by
  split
  · exact onTrue
  · exact onFalse

theorem forall_ok_pure {a : α} {P : α → Prop} (holds : P a) :
    ∀ b, (pure a : Except ε α) = .ok b → P b := fun _ returned => pure_eq_ok.mp returned ▸ holds

/-- `forall_ok_bind`, keeping what the first computation returned. -/
theorem forall_ok_bind_with {x : Except ε α} {f : α → Except ε β} {P : β → Prop}
    (next : ∀ a, x = .ok a → ∀ b, f a = .ok b → P b) : ∀ b, x >>= f = .ok b → P b :=
  fun b returned => by
    obtain ⟨a, first, returned⟩ := bind_eq_ok.mp returned
    exact next a first b returned

/-- `forall_ok_ite`, keeping the branch's condition. -/
theorem forall_ok_ite_with {c : Prop} [Decidable c] {x y : Except ε α} {P : α → Prop}
    (onTrue : c → ∀ b, x = .ok b → P b) (onFalse : ¬c → ∀ b, y = .ok b → P b) :
    ∀ b, (if c then x else y) = .ok b → P b := by
  split
  · exact onTrue ‹_›
  · exact onFalse ‹_›

/-- An invariant that every step keeps, for the members of the list, holds after a loop. -/
theorem foldlM_invariant {f : β → α → Except ε β} {Inv : β → Prop} {l : List α}
    (step : ∀ b, Inv b → ∀ a ∈ l, ∀ b', f b a = .ok b' → Inv b') :
    ∀ b, Inv b → ∀ b', l.foldlM f b = .ok b' → Inv b' := by
  induction l with
  | nil => exact fun b holds b' done => pure_eq_ok.mp done ▸ holds
  | cons a l ih =>
      intro b holds b' done
      obtain ⟨b₁, first, rest⟩ := bind_eq_ok.mp done
      exact ih (fun b h a' mem => step b h a' (List.mem_cons_of_mem _ mem)) b₁
        (step b holds a (List.mem_cons_self _ _) b₁ first) b' rest

/-! A computation that never throws a given error, assembled along its binds, branches and
loops. -/

theorem bind_ne_error {x : Except ε α} {f : α → Except ε β} {d : ε} (first : x ≠ .error d)
    (next : ∀ a, x = .ok a → f a ≠ .error d) : x >>= f ≠ .error d := by
  cases x with
  | error e => simpa [bind, Except.bind] using first
  | ok a => exact next a rfl

theorem ite_ne_error {c : Prop} [Decidable c] {x y : Except ε α} {d : ε} (onTrue : x ≠ .error d)
    (onFalse : y ≠ .error d) : (if c then x else y) ≠ .error d := by
  split
  · exact onTrue
  · exact onFalse

theorem pure_ne_error {a : α} {d : ε} : (pure a : Except ε α) ≠ .error d := nofun

theorem map_ne_error {x : Except ε α} {f : α → β} {d : ε} (first : x ≠ .error d) :
    f <$> x ≠ .error d := by
  cases x with
  | error e => simpa [Functor.map, Except.map] using first
  | ok a => nofun

theorem allM_ne_error {f : α → Except ε Bool} {l : List α} {d : ε}
    (never : ∀ a ∈ l, f a ≠ .error d) : l.allM f ≠ .error d := by
  induction l with
  | nil => exact nofun
  | cons a l ih =>
      refine bind_ne_error (never a (List.mem_cons_self _ _)) fun b _ => ?_
      cases b
      · exact pure_ne_error
      · exact ih fun a' member => never a' (List.mem_cons_of_mem _ member)

/-- A loop never throws `d` when no step from a state of its invariant does. -/
theorem foldlM_ne_error {f : β → α → Except ε β} {Inv : β → Prop} {l : List α} {d : ε}
    (keeps : ∀ b, Inv b → ∀ a ∈ l, ∀ b', f b a = .ok b' → Inv b')
    (never : ∀ b, Inv b → ∀ a ∈ l, f b a ≠ .error d) :
    ∀ b, Inv b → l.foldlM f b ≠ .error d := by
  induction l with
  | nil => exact fun _ _ => nofun
  | cons a l ih =>
      intro b holds
      rw [List.foldlM_cons]
      exact bind_ne_error (never b holds a (List.mem_cons_self _ _)) fun b' step =>
        ih (fun b h a' member => keeps b h a' (List.mem_cons_of_mem _ member))
          (fun b h a' member => never b h a' (List.mem_cons_of_mem _ member)) b'
          (keeps b holds a (List.mem_cons_self _ _) b' step)

end Except

/-- A property of a value that passes from every `Identity` on the way to its argument holds of
where the value resolves. -/
theorem resolveWith_of_step {insts : Nat → Inst} {P : Value → Prop}
    (step : ∀ id, (insts id).op = .identity → P (.inst id) → P ((insts id).arg 0))
    {fuel : Nat} {value result : Value} (holds : P value)
    (resolved : resolveWith insts fuel value = .ok result) : P result := by
  induction fuel, value using resolveWith.induct insts with
  | case1 => simp only [resolveWith, Except.ok.injEq] at resolved; exact resolved ▸ holds
  | case2 id identity => simp [resolveWith, identity] at resolved
  | case3 id notIdentity | case5 _ id notIdentity =>
      simp only [resolveWith, notIdentity, if_false, Except.ok.injEq] at resolved
      exact resolved ▸ holds
  | case4 fuel id identity ih =>
      simp only [resolveWith, identity, if_true] at resolved
      exact ih (step id identity holds) resolved

section Meaning

variable {p : Program} {env : Env} {ρ : Nat → Datum}

/-- Every `Identity` passed on the way keeps the denotation: its equation says it is its argument. -/
theorem resolveWith_denote (consistent : p.Consistent env ρ) {fuel : Nat} {value result : Value}
    (resolved : resolveWith p.insts fuel value = .ok result) :
    value.denote ρ = result.denote ρ :=
  resolveWith_of_step (P := fun x => value.denote ρ = x.denote ρ)
    (fun _ identity same => same.trans (consistent.eq_evalOp identity (by simp))) rfl resolved

theorem resolve_denote (consistent : p.Consistent env ρ) {value result : Value}
    (resolved : p.resolve value = .ok result) : value.denote ρ = result.denote ρ :=
  resolveWith_denote consistent resolved

theorem Program.ResolvesAlike.denote_eq {x y : Value} (alike : p.ResolvesAlike x y)
    (consistent : p.Consistent env ρ) : x.denote ρ = y.denote ρ := by
  obtain ⟨result, x_resolves, y_resolves⟩ := alike
  rw [resolve_denote consistent x_resolves, resolve_denote consistent y_resolves]

variable {Γ : Nat → Ty}

/-- An `Identity` has its argument's type, so a resolution keeps the type. -/
theorem resolveWith_typeIn (typed : p.WellTyped Γ) {fuel : Nat} {value result : Value}
    (resolved : resolveWith p.insts fuel value = .ok result) :
    value.typeIn Γ = result.typeIn Γ := by
  refine resolveWith_of_step (P := fun x => value.typeIn Γ = x.typeIn Γ)
    (fun id identity same => ?_) rfl resolved
  have typing := typed id
  simp only [Program.TypedAt, identity] at typing
  obtain ⟨argument, rest, args_eq, argument_type, -⟩ := List.map_eq_cons_iff.mp typing
  simp only [Inst.arg, args_eq, List.getD_cons_zero]
  exact same.trans argument_type.symm

theorem resolve_typeIn (typed : p.WellTyped Γ) {value result : Value}
    (resolved : p.resolve value = .ok result) : value.typeIn Γ = result.typeIn Γ :=
  resolveWith_typeIn typed resolved

end Meaning

/-- Changing one instruction that is an `Identity` neither before nor after leaves every
resolution as it was. -/
theorem resolveWith_congr {insts insts' : Nat → Inst} {id : Nat}
    (agree : ∀ other, other ≠ id → insts' other = insts other)
    (before : (insts id).op ≠ .identity) (after : (insts' id).op ≠ .identity)
    (fuel : Nat) (value : Value) : resolveWith insts' fuel value = resolveWith insts fuel value := by
  induction fuel generalizing value with
  | zero =>
      cases value with
      | imm => rfl
      | inst start =>
          by_cases here : start = id
          · subst here; simp [resolveWith, before, after]
          · simp [resolveWith, agree start here]
  | succ fuel ih =>
      cases value with
      | imm => rfl
      | inst start =>
          by_cases here : start = id
          · subst here; simp [resolveWith, before, after]
          · simp [resolveWith, agree start here, ih]

namespace Program

variable {p : Program} {value : Value}

@[simp]
theorem resolve_imm (imm : Imm) : p.resolve (.imm imm) = .ok (.imm imm) := by
  simp [resolve, resolveWith]

@[simp]
theorem isImmediate_imm (imm : Imm) : p.isImmediate (.imm imm) = .ok true := by
  simp [isImmediate, bind, Except.bind, pure, Except.pure]

@[simp]
theorem u32_imm (x : BitVec 32) : p.u32 (.imm (.u32 x)) = .ok x := by
  simp [u32, bind, Except.bind, Value.toU32]

theorem isImmediate_eq_ok_true :
    p.isImmediate value = .ok true ↔ ∃ imm, p.resolve value = .ok (.imm imm) := by
  unfold isImmediate
  cases p.resolve value with
  | error => simp [bind, Except.bind]
  | ok result => cases result <;> simp [bind, Except.bind, pure, Except.pure]

theorem isImmediate_eq_ok_false :
    p.isImmediate value = .ok false ↔ ∃ id, p.resolve value = .ok (.inst id) := by
  unfold isImmediate
  cases p.resolve value with
  | error => simp [bind, Except.bind]
  | ok result => cases result <;> simp [bind, Except.bind, pure, Except.pure]

theorem instRecursive_eq_ok {id : Nat} :
    p.instRecursive value = .ok id ↔ p.resolve value = .ok (.inst id) := by
  unfold instRecursive
  cases p.resolve value with
  | error => simp [bind, Except.bind]
  | ok result =>
      cases result <;> simp [bind, Except.bind, pure, Except.pure, throw, throwThe,
        MonadExceptOf.throw]

theorem u1_eq_ok {b : Bool} : p.u1 value = .ok b ↔ p.resolve value = .ok (.imm (.u1 b)) := by
  unfold u1
  cases p.resolve value with
  | error => simp [bind, Except.bind]
  | ok result => rcases result with (_ | _ | _ | _ | _ | _ | _ | _ | _ | _ | _ | _ | _) | _ <;>
      simp [bind, Except.bind, Value.toU1]

theorem u32_eq_ok {x : BitVec 32} :
    p.u32 value = .ok x ↔ p.resolve value = .ok (.imm (.u32 x)) := by
  unfold u32
  cases p.resolve value with
  | error => simp [bind, Except.bind]
  | ok result => rcases result with (_ | _ | _ | _ | _ | _ | _ | _ | _ | _ | _ | _ | _) | _ <;>
      simp [bind, Except.bind, Value.toU32]

theorem u64_eq_ok {x : BitVec 64} :
    p.u64 value = .ok x ↔ p.resolve value = .ok (.imm (.u64 x)) := by
  unfold u64
  cases p.resolve value with
  | error => simp [bind, Except.bind]
  | ok result => rcases result with (_ | _ | _ | _ | _ | _ | _ | _ | _ | _ | _ | _ | _) | _ <;>
      simp [bind, Except.bind, Value.toU64]

theorem f32_eq_ok {x : BitVec 32} :
    p.f32 value = .ok x ↔ p.resolve value = .ok (.imm (.f32 x)) := by
  unfold f32
  cases p.resolve value with
  | error => simp [bind, Except.bind]
  | ok result => rcases result with (_ | _ | _ | _ | _ | _ | _ | _ | _ | _ | _ | _ | _) | _ <;>
      simp [bind, Except.bind, Value.toF32]

theorem reg_eq_ok {reg : Reg} : p.reg value = .ok reg ↔ p.resolve value = .ok (.imm (.reg reg)) := by
  unfold Program.reg
  cases p.resolve value with
  | error => simp [bind, Except.bind]
  | ok result => rcases result with (_ | _ | _ | _ | _ | _ | _ | _ | _ | _ | _ | _ | _) | _ <;>
      simp [bind, Except.bind, Value.toReg]

theorem pred_eq_ok {pred : Pred} :
    p.pred value = .ok pred ↔ p.resolve value = .ok (.imm (.pred pred)) := by
  unfold Program.pred
  cases p.resolve value with
  | error => simp [bind, Except.bind]
  | ok result => rcases result with (_ | _ | _ | _ | _ | _ | _ | _ | _ | _ | _ | _ | _) | _ <;>
      simp [bind, Except.bind, Value.toPred]

theorem attr_eq_ok {attr : Attribute} :
    p.attr value = .ok attr ↔ p.resolve value = .ok (.imm (.attribute attr)) := by
  unfold Program.attr
  cases p.resolve value with
  | error => simp [bind, Except.bind]
  | ok result => rcases result with (_ | _ | _ | _ | _ | _ | _ | _ | _ | _ | _ | _ | _) | _ <;>
      simp [bind, Except.bind, Value.toAttribute]

/-! Once a value resolves, every read of it returns or fails by reading the wrong type: it
never diverges. -/

section Reads

variable (resolves : ∃ result, p.resolve value = .ok result)
include resolves

theorem resolve_ne_diverges : p.resolve value ≠ .error .diverges := by
  obtain ⟨result, resolves⟩ := resolves
  exact resolves ▸ nofun

theorem isImmediate_ne_diverges : p.isImmediate value ≠ .error .diverges := by
  obtain ⟨result, resolves⟩ := resolves
  rw [isImmediate, resolves]
  cases result <;> nofun

theorem instRecursive_ne_diverges : p.instRecursive value ≠ .error .diverges := by
  obtain ⟨result, resolves⟩ := resolves
  rw [instRecursive, resolves]
  cases result <;> nofun

theorem u1_ne_diverges : p.u1 value ≠ .error .diverges := by
  obtain ⟨result, resolves⟩ := resolves
  rw [u1, resolves, ok_bind]
  unfold Value.toU1
  split <;> nofun

theorem u32_ne_diverges : p.u32 value ≠ .error .diverges := by
  obtain ⟨result, resolves⟩ := resolves
  rw [u32, resolves, ok_bind]
  unfold Value.toU32
  split <;> nofun

theorem u64_ne_diverges : p.u64 value ≠ .error .diverges := by
  obtain ⟨result, resolves⟩ := resolves
  rw [u64, resolves, ok_bind]
  unfold Value.toU64
  split <;> nofun

theorem f32_ne_diverges : p.f32 value ≠ .error .diverges := by
  obtain ⟨result, resolves⟩ := resolves
  rw [f32, resolves, ok_bind]
  unfold Value.toF32
  split <;> nofun

theorem reg_ne_diverges : p.reg value ≠ .error .diverges := by
  obtain ⟨result, resolves⟩ := resolves
  rw [reg, resolves, ok_bind]
  unfold Value.toReg
  split <;> nofun

theorem pred_ne_diverges : p.pred value ≠ .error .diverges := by
  obtain ⟨result, resolves⟩ := resolves
  rw [pred, resolves, ok_bind]
  unfold Value.toPred
  split <;> nofun

theorem attr_ne_diverges : p.attr value ≠ .error .diverges := by
  obtain ⟨result, resolves⟩ := resolves
  rw [attr, resolves, ok_bind]
  unfold Value.toAttribute
  split <;> nofun

end Reads

/-! In an execution, a value that reads as an immediate has that immediate's value. -/

section Values

variable {env : Env} {ρ : Nat → Datum} (consistent : p.Consistent env ρ)
include consistent

theorem denote_of_u1 {b : Bool} (read : p.u1 value = .ok b) : value.denote ρ = .scalar (.u1 b) :=
  resolve_denote consistent (u1_eq_ok.mp read)

theorem denote_of_u32 {x : BitVec 32} (read : p.u32 value = .ok x) :
    value.denote ρ = .scalar (.u32 x) :=
  resolve_denote consistent (u32_eq_ok.mp read)

theorem denote_of_f32 {x : BitVec 32} (read : p.f32 value = .ok x) :
    value.denote ρ = .scalar (.f32 x) :=
  resolve_denote consistent (f32_eq_ok.mp read)

theorem denote_of_reg {reg : Reg} (read : p.reg value = .ok reg) :
    value.denote ρ = .scalar (.reg reg) :=
  resolve_denote consistent (reg_eq_ok.mp read)

theorem denote_of_pred {pred : Pred} (read : p.pred value = .ok pred) :
    value.denote ρ = .scalar (.pred pred) :=
  resolve_denote consistent (pred_eq_ok.mp read)

theorem denote_of_attr {attr : Attribute} (read : p.attr value = .ok attr) :
    value.denote ρ = .scalar (.attribute attr) :=
  resolve_denote consistent (attr_eq_ok.mp read)

end Values

end Program

end Shader.IR

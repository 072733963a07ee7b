import Uzuy.Shader.Optimization.ConstantPropagation
import Uzuy.Shader.IR.Rewrite

/-!
# Folding bit-field extracts

The lambdas of the `BitFieldUExtract` and `BitFieldSExtract` cases reject a field that runs past
bit 31, adding `shift` and `count` in `size_t`, where two `u32` cannot wrap. Inside the word they
compute the field exactly, except at the two places where a C++ shift goes by the full width:
`count = 32` in the unsigned extract, where `1U << 32` makes the mask `0`, and `count = 0` in the
signed one, where both shifts are by 32 and the base comes back unchanged.
-/

namespace Shader.Optimization

open Shader.IR

/-! ## The lambdas -/

section Lambdas

variable (base shift count : BitVec 32)

theorem bitFieldUExtractImm_eq_error_iff :
    (∃ error, bitFieldUExtractImm base shift count = .error error) ↔
      32 < shift.toNat + count.toNat := by
  unfold bitFieldUExtractImm
  split <;> simp_all

theorem bitFieldSExtractImm_eq_error_iff :
    (∃ error, bitFieldSExtractImm base shift count = .error error) ↔
      32 < shift.toNat + count.toNat := by
  simp only [bitFieldSExtractImm]
  split <;> simp_all

private theorem mask_toNat {count : Nat} (narrow : count < 32) :
    (shl32 1 count - 1).toNat = 2 ^ count - 1 := by
  have power : 2 ^ count < 2 ^ 32 := Nat.pow_lt_pow_right (by decide) narrow
  have positive : 0 < 2 ^ count := Nat.two_pow_pos count
  have shifted : (shl32 1 count).toNat = 2 ^ count := by
    simp [shl32, Nat.mod_eq_of_lt narrow, Nat.shiftLeft_eq]
    omega
  rw [BitVec.toNat_sub, shifted]
  simp
  omega

/-- Below the full width the unsigned lambda is the exact field. -/
theorem bitFieldUExtractImm_of_lt (fits : shift.toNat + count.toNat ≤ 32)
    (narrow : count.toNat < 32) :
    bitFieldUExtractImm base shift count =
      .ok (BitVec.ofNat 32 (base.toNat / 2 ^ shift.toNat % 2 ^ count.toNat)) := by
  rw [bitFieldUExtractImm, if_neg (by omega)]
  congr 1
  apply BitVec.eq_of_toNat_eq
  rcases Nat.lt_or_ge shift.toNat 32 with inside | edge
  · have field_lt : base.toNat / 2 ^ shift.toNat % 2 ^ count.toNat < 2 ^ 32 :=
      lt_of_lt_of_le (Nat.mod_lt _ (Nat.two_pow_pos _))
        (Nat.pow_le_pow_right (by decide) narrow.le)
    simp only [BitVec.toNat_and, lshr32, BitVec.toNat_ushiftRight, Nat.mod_eq_of_lt inside,
      mask_toNat narrow, Nat.shiftRight_eq_div_pow, Nat.and_pow_two_sub_one_eq_mod,
      BitVec.toNat_ofNat, Nat.mod_eq_of_lt field_lt]
  · have empty : count.toNat = 0 := by omega
    simp [lshr32, shl32, empty, Nat.mod_one]

private theorem sExtract_bits {shift count : Nat} (base : BitVec 32) (fits : shift + count ≤ 32)
    (wide : 0 < count) :
    (base <<< (32 - (shift + count))).sshiftRight (32 - count) =
      (base.extractLsb' shift count).signExtend 32 := by
  have shifted_msb : (base <<< (32 - (shift + count))).msb = base.getLsbD (shift + count - 1) := by
    rw [BitVec.msb_eq_getLsbD_last, BitVec.getLsbD_shiftLeft]
    simp only [show 32 - 1 - (32 - (shift + count)) = shift + count - 1 by omega]
    simp [show ¬(32 - 1 < 32 - (shift + count)) by omega]
  have field_msb : (base.extractLsb' shift count).msb = base.getLsbD (shift + count - 1) := by
    rw [BitVec.msb_eq_getLsbD_last, BitVec.getLsbD_extractLsb']
    simp [show count - 1 < count by omega, show shift + (count - 1) = shift + count - 1 by omega]
  ext i
  rw [BitVec.getLsbD_sshiftRight, BitVec.getLsbD_signExtend, shifted_msb, field_msb]
  by_cases inside : i.val < count
  · simp [show ¬(32 ≤ i.val) by omega, show 32 - count + i.val < 32 by omega, inside,
      show ¬(32 - count + i.val < 32 - (shift + count)) by omega,
      show 32 - count + i.val - (32 - (shift + count)) = shift + i.val by omega]
  · simp [show ¬(32 ≤ i.val) by omega, show ¬(32 - count + i.val < 32) by omega, inside]

/-- With a nonempty field inside the word the signed lambda is the sign-extended field. -/
theorem bitFieldSExtractImm_of_pos (fits : shift.toNat + count.toNat ≤ 32)
    (wide : 0 < count.toNat) :
    bitFieldSExtractImm base shift count =
      .ok ((base.extractLsb' shift.toNat count.toNat).signExtend 32) := by
  simp only [bitFieldSExtractImm, if_neg (show ¬(shift.toNat + count.toNat > 32) by omega),
    ashr32, shl32, Nat.mod_eq_of_lt (show 32 - (shift.toNat + count.toNat) < 32 by omega),
    Nat.mod_eq_of_lt (show 32 - count.toNat < 32 by omega), sExtract_bits base fits wide]

end Lambdas

/-! ## The folds -/

section Folds

variable {p : Program} {block inst : Nat} {base shift count : BitVec 32}

private theorem foldBitField_immediates
    (fn : BitVec 32 → BitVec 32 → BitVec 32 → Except Exception (BitVec 32))
    (noPseudo : (p.insts inst).pseudo = false)
    (args : (p.insts inst).args = [.imm (.u32 base), .imm (.u32 shift), .imm (.u32 count)]) :
    foldBitField p inst fn =
      (fun field => p.replaceUsesWith inst (.imm (.u32 field))) <$> fn base shift count := by
  simp [foldBitField, foldWhenAllImmediates, args, noPseudo, List.allM, Inst.arg, bind,
    Except.bind, pure, Except.pure]
  cases fn base shift count <;> rfl

/-- A `BitFieldUExtract` of three immediates with no pseudo-operation becomes an `Identity` of
what the lambda computes, or the pass throws what the lambda throws. -/
theorem constantPropagation_bitFieldUExtract (opcode : (p.insts inst).op = .bitFieldUExtract)
    (noPseudo : (p.insts inst).pseudo = false)
    (args : (p.insts inst).args = [.imm (.u32 base), .imm (.u32 shift), .imm (.u32 count)]) :
    constantPropagation p block inst =
      (fun field => p.replaceUsesWith inst (.imm (.u32 field))) <$>
        bitFieldUExtractImm base shift count := by
  rw [constantPropagation, opcode]
  exact foldBitField_immediates _ noPseudo args

/-- The same for `BitFieldSExtract`. -/
theorem constantPropagation_bitFieldSExtract (opcode : (p.insts inst).op = .bitFieldSExtract)
    (noPseudo : (p.insts inst).pseudo = false)
    (args : (p.insts inst).args = [.imm (.u32 base), .imm (.u32 shift), .imm (.u32 count)]) :
    constantPropagation p block inst =
      (fun field => p.replaceUsesWith inst (.imm (.u32 field))) <$>
        bitFieldSExtractImm base shift count := by
  rw [constantPropagation, opcode]
  exact foldBitField_immediates _ noPseudo args

/-- Installing the immediate an instruction's opcode computes, whatever the environment and the
execution, keeps every valuation. -/
private theorem keepsValuations_of_computes {imm : Imm}
    (notPhi : ∀ type, (p.insts inst).op ≠ .phi type)
    (computes : ∀ env ρ, p.eval env ρ inst = .scalar imm) (Γ : Nat → Ty) :
    p.KeepsValuations Γ (p.replaceUsesWith inst (.imm imm)) :=
  fun env ρ consistent _ => consistent.replaceUsesWith
    (((Program.satisfies_iff notPhi).mp (consistent inst)).trans (computes env ρ))

end Folds

/-! ## Inside the word -/

/-- `BitField{U,S}Extract #0xAB, #4, #4`: the nibble `0xA`. -/
def nibbleExtract (op : Opcode) : Program :=
  .ofInsts [{ op, args := [.imm (.u32 0xAB), .imm (.u32 4), .imm (.u32 4)] }]

section Exact

variable {p : Program} {block inst : Nat} {base shift count : BitVec 32}

/-- A `BitFieldUExtract` of three immediates with no pseudo-operation throws when the field runs
past bit 31. Below the full width the fold returns: it makes the instruction an `Identity` of the
field, the `count` bits of `base` from bit `shift` on, which keeps every valuation. -/
theorem constantPropagation_bitFieldUExtract_exact (opcode : (p.insts inst).op = .bitFieldUExtract)
    (noPseudo : (p.insts inst).pseudo = false)
    (args : (p.insts inst).args = [.imm (.u32 base), .imm (.u32 shift), .imm (.u32 count)]) :
    (32 < shift.toNat + count.toNat → ∃ error, constantPropagation p block inst = .error error) ∧
      (shift.toNat + count.toNat ≤ 32 → count.toNat < 32 →
        ∃ p', constantPropagation p block inst = .ok p' ∧
          p' = p.replaceUsesWith inst
            (.imm (.u32 (BitVec.ofNat 32 (base.toNat / 2 ^ shift.toNat % 2 ^ count.toNat)))) ∧
          ∀ Γ, p.KeepsValuations Γ p') := by
  rw [constantPropagation_bitFieldUExtract opcode noPseudo args]
  refine ⟨fun wide => ?_, fun fits narrow => ?_⟩
  · obtain ⟨error, thrown⟩ := (bitFieldUExtractImm_eq_error_iff base shift count).mpr wide
    exact ⟨error, by rw [thrown]; rfl⟩
  · rw [bitFieldUExtractImm_of_lt base shift count fits narrow]
    exact ⟨_, rfl, rfl, keepsValuations_of_computes (by simp [opcode]) fun _ _ => by
      simp only [Program.eval, opcode, Inst.arg, args]
      rfl⟩

theorem nibbleUExtract_exact :
    ((nibbleExtract .bitFieldUExtract).insts 0).pseudo = false ∧
      ∃ p', constantPropagation (nibbleExtract .bitFieldUExtract) 0 0 = .ok p' ∧
        p' = (nibbleExtract .bitFieldUExtract).replaceUsesWith 0 (.imm (.u32 0xA)) ∧
        ∀ Γ, (nibbleExtract .bitFieldUExtract).KeepsValuations Γ p' :=
  ⟨rfl, (constantPropagation_bitFieldUExtract_exact rfl rfl
    (show ((nibbleExtract .bitFieldUExtract).insts 0).args =
      [.imm (.u32 0xAB), .imm (.u32 4), .imm (.u32 4)] from rfl)).2 (by decide) (by decide)⟩

/-- A `BitFieldSExtract` of three immediates with no pseudo-operation throws when the field runs
past bit 31. For a nonempty field inside the word the fold returns: it makes the instruction an
`Identity` of the field sign-extended to 32 bits, which keeps every valuation. -/
theorem constantPropagation_bitFieldSExtract_exact (opcode : (p.insts inst).op = .bitFieldSExtract)
    (noPseudo : (p.insts inst).pseudo = false)
    (args : (p.insts inst).args = [.imm (.u32 base), .imm (.u32 shift), .imm (.u32 count)]) :
    (32 < shift.toNat + count.toNat → ∃ error, constantPropagation p block inst = .error error) ∧
      (shift.toNat + count.toNat ≤ 32 → 0 < count.toNat →
        ∃ p', constantPropagation p block inst = .ok p' ∧
          p' = p.replaceUsesWith inst
            (.imm (.u32 ((base.extractLsb' shift.toNat count.toNat).signExtend 32))) ∧
          ∀ Γ, p.KeepsValuations Γ p') := by
  rw [constantPropagation_bitFieldSExtract opcode noPseudo args]
  refine ⟨fun wide => ?_, fun fits nonempty => ?_⟩
  · obtain ⟨error, thrown⟩ := (bitFieldSExtractImm_eq_error_iff base shift count).mpr wide
    exact ⟨error, by rw [thrown]; rfl⟩
  · rw [bitFieldSExtractImm_of_pos base shift count fits nonempty]
    exact ⟨_, rfl, rfl, keepsValuations_of_computes (by simp [opcode]) fun _ _ => by
      simp only [Program.eval, opcode, Inst.arg, args]
      rfl⟩

theorem nibbleSExtract_exact :
    ((nibbleExtract .bitFieldSExtract).insts 0).pseudo = false ∧
      ∃ p', constantPropagation (nibbleExtract .bitFieldSExtract) 0 0 = .ok p' ∧
        p' = (nibbleExtract .bitFieldSExtract).replaceUsesWith 0 (.imm (.u32 0xFFFFFFFA)) ∧
        ∀ Γ, (nibbleExtract .bitFieldSExtract).KeepsValuations Γ p' :=
  ⟨rfl, (constantPropagation_bitFieldSExtract_exact rfl rfl
    (show ((nibbleExtract .bitFieldSExtract).insts 0).args =
      [.imm (.u32 0xAB), .imm (.u32 4), .imm (.u32 4)] from rfl)).2 (by decide) (by decide)⟩

end Exact

/-! ## The full-width boundaries -/

/-- `BitFieldUExtract #1, #0, #32`: the whole word, so the field is the base, `1`. -/
def wholeWordUExtract : Program :=
  .ofInsts [{ op := .bitFieldUExtract, args := [.imm (.u32 1), .imm (.u32 0), .imm (.u32 32)] }]

/-- The fold installs `0` for `BitFieldUExtract #1, #0, #32`, whose value is `1`. -/
theorem wholeWordUExtract_folds_to_zero :
    (constantPropagation wholeWordUExtract 0 0).map (·.insts 0) =
        .ok { op := .identity, args := [.imm (.u32 0)] } ∧
      ∀ env ρ, wholeWordUExtract.eval env ρ 0 = .scalar (.u32 1) :=
  ⟨rfl, fun _ _ => by
    simp [wholeWordUExtract, Program.eval, Program.ofInsts, evalOp, Inst.arg, Datum.u32]⟩

/-- `BitFieldSExtract #1, #0, #0`: an empty field, whose value is `0`. -/
def emptyFieldSExtract : Program :=
  .ofInsts [{ op := .bitFieldSExtract, args := [.imm (.u32 1), .imm (.u32 0), .imm (.u32 0)] }]

/-- The fold installs the base `1` for `BitFieldSExtract #1, #0, #0`, whose value is `0`. -/
theorem emptyFieldSExtract_folds_to_base :
    (constantPropagation emptyFieldSExtract 0 0).map (·.insts 0) =
        .ok { op := .identity, args := [.imm (.u32 1)] } ∧
      ∀ env ρ, emptyFieldSExtract.eval env ρ 0 = .scalar (.u32 0) :=
  ⟨rfl, fun _ _ => by
    simp [emptyFieldSExtract, Program.eval, Program.ofInsts, evalOp, Inst.arg, Datum.u32]⟩

end Shader.Optimization

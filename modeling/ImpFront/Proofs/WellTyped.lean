import Mathlib
import ImpFront.Proofs.Registers

/-! Types of compiled functions. A register has the type of the one instruction that defines it, and
with these types all operands of a function match, those of calls against the signatures that the
module records. -/

namespace ImpFront

/-- The signature that a module records for a name. -/
def Module.signature? (m : Module) (name : String) : Option Signature :=
  (m.function? name).map Func.signature

/-- The type of a register, as the instruction that defines it gives it. -/
def Func.regTy (known : String → Option Signature) (F : Func) (r : Reg) : ValTy :=
  ((F.definition? r).bind (Instr.resultTy? known)).getD .bool

/-- Under the types `τ` of its registers, each instruction of a function takes operands of the right
types and defines a register of the right type. -/
def Func.WellTyped (m : Module) (F : Func) (τ : Reg → ValTy) : Prop :=
  ∀ i ∈ F.code,
    i.Takes m.signature? F.signature.ret (Value.HasTy F.signature.params fun r t => τ r = t) ∧
    ∀ r, i.dst? = some r → i.resultTy? m.signature? = some (τ r)

namespace Func.Certified

variable {Γ : Signatures} {F : Func} {E : List (Scopes Value)}

/-- A register is defined by one instruction only. -/
theorem eq_of_dst? (h : F.Certified Γ E) {i j : Instr} {r : Reg} (hi : i ∈ F.code) (hj : j ∈ F.code)
    (hir : i.dst? = some r) (hjr : j.dst? = some r) : i = j := by
  have hnodup : (F.code.filterMap Instr.dst?).Nodup :=
    h.dsts.nodup_iff.2 (List.nodup_range.map fun _ _ he => Handle.mk.inj he)
  by_contra hne
  have hapart : F.code.Pairwise fun a b => ∀ x, a.dst? = some x → ∀ y, b.dst? = some y → x ≠ y :=
    List.pairwise_filterMap.1 hnodup
  have : Std.Symm fun a b : Instr => ∀ x, a.dst? = some x → ∀ y, b.dst? = some y → x ≠ y :=
    ⟨fun a b hab x hx y hy he => hab y hy x hx he.symm⟩
  exact hapart.forall hi hj hne r hir r hjr rfl

theorem regTy_eq (h : F.Certified Γ E) {e : Reg × ValTy} (he : F.Assigns Γ.find? e) :
    F.regTy Γ.find? e.1 = e.2 := by
  obtain ⟨i, hi, hdst, hty⟩ := he
  have hsome : (F.definition? e.1).isSome := List.find?_isSome.2 ⟨i, hi, by simpa using hdst⟩
  obtain ⟨j, hj⟩ := Option.isSome_iff_exists.1 hsome
  have hjdst : j.dst? = some e.1 := by simpa using List.find?_some hj
  obtain rfl := h.eq_of_dst? (List.mem_of_find?_eq_some hj) hi hjdst hdst
  rw [regTy, hj, Option.bind_some, hty, Option.getD_some]

/-- Signatures under which the function was checked may be replaced by those that its callees
have. -/
theorem wellTyped (h : F.Certified Γ E) {m : Module} (hcall : ∀ dst c args sig,
      .call dst c args ∈ F.code → Γ.find? c = some sig → m.signature? c = some sig) :
    F.WellTyped m (F.regTy Γ.find?) := by
  intro i hi
  obtain ⟨⟨d, htakes, hd⟩, hty⟩ := h.takes hi
  constructor
  · refine htakes.imp (fun v t hv => ?_) fun dst c args sig he hsig =>
      hcall dst c args sig (he ▸ hi) hsig
    cases v with
    | reg r => exact h.regTy_eq (hd _ hv)
    | int | double | arg => exact hv
  · intro r hr
    obtain ⟨t, ht⟩ := hty r hr
    have hτ : F.regTy Γ.find? r = t := h.regTy_eq (e := (r, t)) ⟨i, hi, hr, ht⟩
    rw [hτ]
    cases i with
    | call dst c args =>
      obtain ⟨sig, hsig, rfl⟩ := Option.map_eq_some_iff.1 ht
      exact Option.map_eq_some_iff.2 ⟨sig, hcall dst c args sig hi hsig, rfl⟩
    | stackAlloc | heapAlloc | load | arith | compare | cast => exact ht
    | comment | heapFree | store | branch | condBranch | ret | unreachable => cases ht

end Func.Certified

/-- As long as the parameters have different numbers, an operand has the type of the parameter of
its number. -/
theorem Value.hasTy_arg {params : List Ty} (h : params.length ≤ Recorder.paramLimit)
    (R : Reg → ValTy → Prop) (k : Nat) (t : ValTy) :
    (Value.arg k).HasTy params R t ↔ (params[k]?).map ValTy.ofTy = some t := by
  constructor
  · rintro ⟨i, ty, hi, hk, rfl⟩
    have hlt := (List.getElem?_eq_some_iff.1 hi).1
    have hk : i % Recorder.paramLimit = k := Value.arg.inj hk
    rw [Nat.mod_eq_of_lt (lt_of_lt_of_le hlt h)] at hk
    rw [← hk, hi]
    rfl
  · intro hk
    obtain ⟨ty, hty, rfl⟩ := Option.map_eq_some_iff.1 hk
    have hlt := (List.getElem?_eq_some_iff.1 hty).1
    exact ⟨k, ty, hty, congrArg Value.arg (Nat.mod_eq_of_lt (lt_of_lt_of_le hlt h)), rfl⟩

/-- Each function body of a compiled module is well typed. Parameters that share a 32-bit number
share an operand; where there are no such parameters, an operand has the type of its one
parameter. -/
theorem compile_wellTyped (source : String) {F : Func}
    (hF : F ∈ (compile source Recorder.empty).2.toModule.functions) (hbody : F.blocks ≠ []) :
    ∃ τ, F.WellTyped (compile source Recorder.empty).2.toModule τ ∧
      (F.signature.params.length ≤ Recorder.paramLimit → ∀ k t,
        (Value.arg k).HasTy F.signature.params (fun r t => τ r = t) t ↔
        (F.signature.params[k]?).map ValTy.ofTy = some t) := by
  obtain ⟨Γ, hdrafted, hcall⟩ := compile_drafted source hF hbody
  obtain ⟨E, hcertified⟩ := hdrafted.certified
  refine ⟨_, hcertified.wellTyped fun dst c args sig hmem hsig => ?_,
    fun hlimit k t => Value.hasTy_arg hlimit _ k t⟩
  obtain ⟨G, hG, rfl⟩ := hcall dst c args sig hmem hsig
  rw [Module.signature?, hG]
  rfl

/-- Every conversion, and a call of a function that is only declared. -/
theorem compile_wellTyped_conversions :
    let m := (compile ("extern Double g(Double p, int n); " ++
      "double f(int n, double d, Double q) \x7b int b; Double p; b = d; p = q; " ++
      "if (d) \x7b b = n < d; \x7d return g(p, n < b) + n; \x7d") Recorder.empty).2.toModule
    ∃ F ∈ m.functions, F.blocks.length = 4 ∧ F.signature.params.length = 3 ∧ ∃ τ, F.WellTyped m τ ∧
      ∀ k t, (Value.arg k).HasTy F.signature.params (fun r t => τ r = t) t ↔
        (F.signature.params[k]?).map ValTy.ofTy = some t := by
  intro m
  have hmem : ∃ F ∈ m.functions, F.blocks.length = 4 ∧ F.signature.params.length = 3 := by
    decide +kernel
  obtain ⟨F, hF, hlen, hparams⟩ := hmem
  obtain ⟨τ, hτ, hargs⟩ := compile_wellTyped _ hF (List.ne_nil_of_length_pos (by omega))
  exact ⟨F, hF, hlen, hparams, τ, hτ, hargs (hparams ▸ by decide)⟩

end ImpFront

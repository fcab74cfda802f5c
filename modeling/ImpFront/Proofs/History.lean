import Mathlib
import ImpFront.Proofs.Failure

/-! The code of a function does not depend on what was lowered before it. Two sessions that know the
callees of a definition by the same signatures give it the same code, whatever else they have
declared and in whichever order. -/

namespace ImpFront

open Lower

theorem Signatures.exists_register {Γ : Signatures} {name : String} {signature : Signature}
    (h : ∀ known, Γ.find? name = some known → known = signature) :
    ∃ Γ', Γ.register name signature = .ok Γ' := by
  unfold Signatures.register
  cases hf : Γ.find? name with
  | none => exact ⟨_, rfl⟩
  | some known => exact ⟨Γ, if_pos (h known hf)⟩

namespace Definition.Begun

variable {d : Definition} {s s' : Lowering Recorder} {S S' : Site} {F F' : Func}

/-- Definitions are lowered into a function that depends on their prototype alone. -/
theorem func_eq (hb : d.Begun s S F) (hs : s.Coherent) :
    F = ⟨d.prototype.name, d.prototype.signature, [], 0⟩ := by
  obtain ⟨hblocks, hregs, hsig⟩ := hs.begun hb
  rw [← hb.name, ← hsig, ← hblocks, ← hregs]

theorem agrees (hb : d.Begun s S F) (hb' : d.Begun s' S' F')
    (h : ∀ g ∈ d.callees, g ≠ d.prototype.name → s'.signatures.find? g = s.signatures.find? g) :
    S.Agrees S' d.callees where
  ret := hb'.ret.trans hb.ret.symm
  known g hg := by
    rw [hb.find?_signatures, hb'.find?_signatures]
    split
    · rfl
    · exact h g hg ‹_›

end Definition.Begun

/-- In two sessions in which a function is not defined and not known by another signature, and which
know the other functions that it calls by the same signatures or not at all, its definition fails
with the same error, or it is lowered to the same function. -/
theorem Definition.lower_regardless_of_history (d : Definition) (before before' : List Item)
    (hnew : (Lowering.session before).signatures.isDefined d.prototype.name = false)
    (hnew' : (Lowering.session before').signatures.isDefined d.prototype.name = false)
    (hown : ∀ known, (Lowering.session before).signatures.find? d.prototype.name = some known →
      known = d.prototype.signature)
    (hown' : ∀ known, (Lowering.session before').signatures.find? d.prototype.name = some known →
      known = d.prototype.signature)
    (hcallees : ∀ g ∈ d.callees, g ≠ d.prototype.name →
      (Lowering.session before').signatures.find? g =
        (Lowering.session before).signatures.find? g) :
    (∃ e t t', d.lower (Lowering.session before) = .error e t ∧
      d.lower (Lowering.session before') = .error e t') ∨
    ∃ f f' t t' F,
      d.lower (Lowering.session before) = .ok f t ∧ d.lower (Lowering.session before') = .ok f' t' ∧
      t.target.function? f = some F ∧ t'.target.function? f' = some F ∧
      F.name = d.prototype.name := by
  have hs := (Lowering.coupled_session before).coherent
  have hs' := (Lowering.coupled_session before').coherent
  obtain ⟨Γ, hreg⟩ := Signatures.exists_register hown
  obtain ⟨Γ', hreg'⟩ := Signatures.exists_register hown'
  obtain ⟨S, F, B, hb, hB, hend⟩ := d.lower_begun hnew hreg
  obtain ⟨S', F', B', hb', -, hend'⟩ := d.lower_begun hnew' hreg'
  obtain rfl : F' = F := (hb'.func_eq hs').trans (hb.func_eq hs).symm
  -- one of the two runs decides how both bodies end
  obtain ⟨C, ds, -, -, hrun⟩ := Definition.lowerBody_twins (d := d) ⟨hb.func, hb.scopes,
    hb.temporaries⟩ ⟨hb'.func, hb'.scopes, hb'.temporaries⟩ (hb.agrees hb' hcallees)
  rcases hrun with ⟨hC, hC'⟩ | ⟨e, hC, hC'⟩
  · rcases hend with ⟨hbody, hok⟩ | ⟨_, hbody, -⟩
    · rcases hend' with ⟨hbody', hok'⟩ | ⟨_, hbody', -⟩
      · obtain rfl := Site.state_injective (EStateM.Result.ok.inj (hbody.symm.trans hC)).2
        obtain rfl := Site.state_injective (EStateM.Result.ok.inj (hbody'.symm.trans hC')).2
        exact .inr ⟨_, _, _, _, B.func, hok, hok', S.function?_recorder B, S'.function?_recorder _,
          hB.name.trans hb.name⟩
      · cases hbody'.symm.trans hC'
    · cases hbody.symm.trans hC
  · rcases hend with ⟨hbody, -⟩ | ⟨_, hbody, herr⟩
    · cases hbody.symm.trans hC
    · rcases hend' with ⟨hbody', -⟩ | ⟨_, hbody', herr'⟩
      · cases hbody'.symm.trans hC'
      · obtain ⟨rfl, -⟩ := EStateM.Result.error.inj (hbody.symm.trans hC)
        obtain ⟨rfl, -⟩ := EStateM.Result.error.inj (hbody'.symm.trans hC')
        exact .inl ⟨_, _, _, herr, herr'⟩

/-- A recursive function has the same code as first function of a session that has called nothing,
and in one where it was declared behind its caller and callee and another definition has failed. -/
theorem Definition.lower_regardless_of_history_declared :
    let int := Ty.plain .int
    let p : Prototype := ⟨0, "f", [⟨0, "x", int⟩], int⟩
    let g := Item.external ⟨0, "g", [⟨0, "x", int⟩], int⟩
    let d : Definition := ⟨0, p,
      .mk 1 [.ifElse 2 (.binary 3 .less (.var 3 "x") (.int 4 1)) (.mk 5 [.ret 6 (.var 7 "x")])
      (.mk 8 []), .ret 9 (.call 10 "g" [.call 11 "f" [.binary 12 .sub (.var 12 "x") (.int 13 1)]])]⟩
    let before' := [g, .external p, .definition ⟨0, ⟨0, "h", [], int⟩, .mk 0 [.ret 0 (.var 0 "y")]⟩,
      .definition ⟨0, ⟨0, "caller", [], int⟩,
        .mk 0 [.ret 0 (.call 0 "g" [.call 0 "f" [.int 0 0]])]⟩]
    ∃ f f' t t' F,
      d.lower (Lowering.session [g]) = .ok f t ∧ d.lower (Lowering.session before') = .ok f' t' ∧
      t.target.function? f = some F ∧ t'.target.function? f' = some F ∧ F.name = "f" := by
  intro int p g d before'
  have hown : ∀ before : List Item, (Lowering.session before).signatures.find? "f" = none ∨
      (Lowering.session before).signatures.find? "f" = some p.signature →
      ∀ known,
        (Lowering.session before).signatures.find? "f" = some known → known = p.signature := by
    rintro before (h | h) known hknown
    · cases h.symm.trans hknown
    · exact (Option.some.inj (h.symm.trans hknown)).symm
  have hcallees : ∀ name ∈ ["g", "f"], name ≠ "f" →
      (Lowering.session before').signatures.find? name =
        (Lowering.session [g]).signatures.find? name := by decide +kernel
  have hfine : Lowering.failure? (.definition d) (Lowering.session [g]) = none := by decide +kernel
  refine (Definition.lower_regardless_of_history
    d [g] before' (by decide +kernel) (by decide +kernel) (hown [g] (.inl (by decide +kernel)))
    (hown before' (.inr (by decide +kernel))) hcallees).resolve_left ?_
  rintro ⟨e, t, t', he, -⟩
  simp only [Lowering.failure?, Item.lower, bind_of_error he] at hfine
  cases hfine

end ImpFront

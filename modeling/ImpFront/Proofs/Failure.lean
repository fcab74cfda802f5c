import Mathlib
import ImpFront.Proofs.Coupling
import ImpFront.Proofs.Decision

/-! Items that fail. A definition is refused as a whole, or its body is abandoned half way; then the
body is taken back, and of its work only declarations of functions that it calls stay. Which of the
two it was can be read off the fault. -/

namespace ImpFront

open Lower

/-- The faults that a body can have. The others concern a definition as a whole, or no program at
all. -/
def Fault.inBody : Fault → Bool
  | .redeclared _ | .unknownVariable _ | .unknownFunction _ | .argumentCount
      .. | .incompatiblePointer .. => true
  | .functionRedefined _ | .conflictingPrototype _ | .internal _ => false

/-- Whatever a check reports is a fault of a body. -/
def ReportsInBody {α : Type} (x : Except LowerError α) : Prop :=
  ∀ e, x = .error e → e.fault.inBody = true

section

variable {α β : Type}

theorem reportsInBody_ok (a : α) : ReportsInBody (.ok a) := fun _ he => by cases he

theorem reportsInBody_error {e : LowerError} (h : e.fault.inBody = true) :
    ReportsInBody (.error e : Except LowerError α) :=
  fun _ he => by
    cases he
    exact h

theorem ReportsInBody.bind {x : Except LowerError α} {k : α → Except LowerError β}
    (hx : ReportsInBody x) (hk : ∀ a, ReportsInBody (k a)) : ReportsInBody (x >>= k) := by
  cases x with
  | error e => exact reportsInBody_error (hx e rfl)
  | ok a => exact hk a

end

theorem TypeFrame.resolve_reports (frames : List TypeFrame) (pos : Nat) (x : String) :
    ReportsInBody (TypeFrame.resolve frames pos x) := by
  unfold TypeFrame.resolve
  split
  · exact reportsInBody_ok _
  · exact reportsInBody_error rfl

theorem TypeFrame.declare_reports (pos : Nat) (x : String) (ty : Ty) (f : TypeFrame) :
    ReportsInBody (TypeFrame.declare pos x ty f) := by
  unfold TypeFrame.declare
  split
  · exact reportsInBody_error rfl
  · exact reportsInBody_ok _

theorem TypeFrame.declareAll_reports (pos : Nat) (ty : Ty) (xs : List String) :
    ∀ f, ReportsInBody (TypeFrame.declareAll pos ty xs f) := by
  induction xs with
  | nil => exact reportsInBody_ok
  | cons x xs ih => exact fun f => (TypeFrame.declare_reports pos x ty f).bind ih

theorem TypeFrame.bindParams_reports (ps : List Param) :
    ∀ f, ReportsInBody (TypeFrame.bindParams ps f) := by
  induction ps with
  | nil => exact reportsInBody_ok
  | cons p ps ih => exact fun f => (TypeFrame.declare_reports p.pos p.name p.ty f).bind ih

theorem ValTy.fits_reports (pos : Nat) (t : ValTy) (ty : Ty) : ReportsInBody (t.fits pos ty) := by
  unfold ValTy.fits
  split
  · exact reportsInBody_ok _
  · split
    · exact reportsInBody_ok _
    · exact reportsInBody_error rfl

mutual

theorem Expr.check_reports (Γ : Signatures) (frames : List TypeFrame) :
    ∀ e : Expr, ReportsInBody (e.check Γ frames)
  | .int .. | .double .. => reportsInBody_ok _
  | .var pos x => (TypeFrame.resolve_reports frames pos x).bind fun _ => reportsInBody_ok _
  | .binary _ _ l r =>
    (l.check_reports Γ frames).bind fun _ => (r.check_reports Γ frames).bind fun _ =>
      reportsInBody_ok _
  | .call pos g args => by
    unfold Expr.check
    split
    · exact reportsInBody_error rfl
    · split
      · exact reportsInBody_error rfl
      · exact (Expr.checkArgs_reports Γ frames args _).bind fun _ => reportsInBody_ok _

theorem Expr.checkArgs_reports (Γ : Signatures) (frames : List TypeFrame) :
    ∀ (es : List Expr) (tys : List Ty), ReportsInBody (Expr.checkArgs Γ frames es tys)
  | [], _ => reportsInBody_ok _
  | _ :: _, [] => reportsInBody_ok _
  | e :: es, ty :: tys =>
    (e.check_reports Γ frames).bind fun t => (t.fits_reports e.pos ty).bind fun _ =>
      Expr.checkArgs_reports Γ frames es tys

end

mutual

theorem Stmt.check_reports (Γ : Signatures) (ret : Ty) (outer : List TypeFrame) :
    ∀ (s : Stmt) (f : TypeFrame), ReportsInBody (s.check Γ ret outer f)
  | .declaration pos ty xs, f => TypeFrame.declareAll_reports pos ty xs f
  | .assignment pos x e, _ =>
    (TypeFrame.resolve_reports _ pos x).bind fun ty => (e.check_reports Γ _).bind fun t =>
      (t.fits_reports pos ty).bind fun _ => reportsInBody_ok _
  | .ret pos e, _ =>
    (e.check_reports Γ _).bind fun t => (t.fits_reports pos ret).bind fun _ => reportsInBody_ok _
  | .ifElse _ c yes no, _ =>
    (c.check_reports Γ _).bind fun _ => (yes.check_reports Γ ret _).bind fun _ =>
      (no.check_reports Γ ret _).bind fun _ => reportsInBody_ok _
  | .loop _ c body, _ =>
    (c.check_reports Γ _).bind fun _ => (body.check_reports Γ ret _).bind fun _ =>
      reportsInBody_ok _
  | .block body, _ => (body.check_reports Γ ret _).bind fun _ => reportsInBody_ok _

theorem Block.check_reports (Γ : Signatures) (ret : Ty) (frames : List TypeFrame) :
    ∀ b : Block, ReportsInBody (b.check Γ ret frames)
  | .mk _ ss => Stmt.checkList_reports Γ ret frames ss []

theorem Stmt.checkList_reports (Γ : Signatures) (ret : Ty) (outer : List TypeFrame) :
    ∀ (ss : List Stmt) (f : TypeFrame), ReportsInBody (Stmt.checkList Γ ret outer f ss)
  | [], _ => reportsInBody_ok _
  | s :: ss, f => by
    refine (s.check_reports Γ ret outer f).bind fun g => ?_
    split
    · exact reportsInBody_ok _
    · exact Stmt.checkList_reports Γ ret outer ss g

end

/-- A body fails for what it contains. -/
theorem Definition.Begun.inBody_of_error {d : Definition} {s s' : Lowering Recorder} {S : Site}
    {F : Func} {e : LowerError} (hb : d.Begun s S F) (h : d.lowerBody S.id S.start = .error e s') :
    e.fault.inBody = true := by
  have hdecided := d.lowerBody_decided hb.func hb.scopes hb.temporaries hb.ret
  cases hc : d.check S.start.signatures with
  | ok u =>
    rw [hc] at hdecided
    obtain ⟨B, hB⟩ := hdecided
    cases h.symm.trans hB
  | error e' =>
    rw [hc] at hdecided
    obtain ⟨B, hB⟩ := hdecided
    obtain ⟨rfl, -⟩ := EStateM.Result.error.inj (h.symm.trans hB)
    exact ((TypeFrame.bindParams_reports _ _).bind fun f => Stmt.checkList_reports _ _ _ _ f) e hc

/-- The functions that an item calls. -/
def Item.callees : Item → List String
  | .external _ => []
  | .definition d => d.callees

/-- The state after a failed item differs from the one before only in bare declarations of functions
that the item calls, and in the signature of its own name, if none was known. -/
structure Item.Abandoned (item : Item) (s s' : Lowering Recorder) : Prop where
  kept : ∀ id F, s.target.function? id = some F → s'.target.function? id = some F
  added : ∀ id F, s'.target.function? id = some F → s.target.function? id = none → F.blocks = [] ∧
    F.registers = 0 ∧
    F.name ∈ item.callees ∧ F.name ≠ item.name ∧ s.signatures.find? F.name = some F.signature
  defined : s'.signatures.defined = s.signatures.defined
  others : ∀ name, name ≠ item.name → s'.signatures.find? name = s.signatures.find? name
  own : ∀ signature,
    s.signatures.find? item.name = some signature → s'.signatures.find? item.name = some signature
  idle : s'.scopes = [] ∧ s'.current = none ∧ s'.temporaries = []

variable {s s' : Lowering Recorder}

theorem Item.abandoned_self (item : Item) (h : s.Coupled) : item.Abandoned s s where
  kept _ _ hF := hF
  added id F hF hnone := by cases hnone.symm.trans hF
  defined := rfl
  others _ _ := rfl
  own _ hs := hs
  idle := by
    rw [← h.idle]
    exact ⟨rfl, rfl, rfl⟩

theorem Definition.Begun.abandoned {d : Definition} {S : Site} {F : Func} {B : Body} (h : s.Coupled)
    (hb : d.Begun s S F) (hB : S.Adds d.callees (Body.entry F) B) :
    (Item.definition d).Abandoned s { (S.state B).rest with
      target := if (s.target.find? d.prototype.name).isSome then (S.recorder B).clearBody S.id
        else (S.recorder B).discard S.id } where
  kept _ _ hF := h.function?_kept hb hB rfl hF
  added _ _ hF hnone := h.function?_added hb hB rfl hF hnone
  defined := hb.defined
  others name hname := (hb.find?_signatures name).trans (if_neg hname)
  own _ hs := hb.find?_mono hs
  idle := ⟨rfl, rfl, rfl⟩

/-- A failed item was abandoned in its body, or refused with the state as it was. -/
theorem Item.lower_error {item : Item} {e : LowerError} (h : s.Coupled)
    (he : item.lower s = .error e s') :
    item.Abandoned s s' ∧ (e.fault.inBody = true ∨ s' = s ∧
      (e.fault = .functionRedefined item.name ∨ e.fault = .conflictingPrototype item.name)) := by
  have heffect := item.lower_effect s
  rw [he] at heffect
  cases heffect with
  | refused hfault => exact ⟨Item.abandoned_self _ h, .inr ⟨rfl, hfault⟩⟩
  | abandoned hb _ hbody =>
    exact ⟨hb.abandoned h (hb.adds (.inr ⟨_, hbody⟩)), .inl (hb.inBody_of_error hbody)⟩

/-- An item that fails in a session leaves every function as it was and adds at most bare
declarations of functions that it calls; the signatures change at most for its own name, and nothing
of the body is left. One that is refused as a whole changes nothing at all. -/
theorem Item.lower_leaves_no_trace (before : List Item) (item : Item) {e : LowerError}
    {s' : Lowering Recorder} (h : item.lower (Lowering.session before) = .error e s') :
    item.Abandoned (Lowering.session before) s' ∧
      ∀ name, e.fault = .functionRedefined name ∨
      e.fault = .conflictingPrototype name → s' = Lowering.session before := by
  obtain ⟨habandoned, hbody | ⟨hsame, -⟩⟩ := Item.lower_error (Lowering.coupled_session before) h
  · refine ⟨habandoned, fun name hfault => ?_⟩
    rcases hfault with hfault | hfault
    · rw [hfault] at hbody
      cases hbody
    · rw [hfault] at hbody
      cases hbody
  · exact ⟨habandoned, fun _ _ => hsame⟩

/-- The error of an item, if it fails. -/
def Lowering.failure? (item : Item) (s : Lowering Recorder) : Option LowerError :=
  match item.lower s with
  | .ok _ _ => none
  | .error e _ => some e

theorem Lowering.lower_of_failure? {item : Item} {e : LowerError}
    (h : Lowering.failure? item s = some e) :
    item.lower s = .error e (Lowering.after item s) := by
  unfold Lowering.failure? at h
  unfold Lowering.after
  cases hl : item.lower s with
  | ok a t =>
    rw [hl] at h
    cases h
  | error e' t =>
    rw [hl] at h
    cases h
    rfl

/-- A body that fails behind a call leaves the declaration of its callee, and its own function as it
was declared. -/
theorem Item.lower_leaves_no_trace_behindCall :
    let int := Ty.plain .int
    let before := [Item.external ⟨0, "g", [⟨0, "x", int⟩], int⟩, .external ⟨0, "f", [], int⟩,
      .definition ⟨0, ⟨0, "caller", [], int⟩, .mk 0 [.ret 0 (.call 0 "f" [])]⟩]
    let item := Item.definition ⟨0, ⟨0, "f", [], int⟩, .mk 1 [.declaration 2 int ["y"],
      .assignment 3 "y" (.call 4 "g" [.int 5 1]), .ret 6 (.var 7 "z")]⟩
    let s := Lowering.session before
    let s' := Lowering.after item s
    item.lower s = .error ⟨.unknownVariable "z", 7⟩ s' ∧ s.target.names = ["caller", "f"] ∧
      s'.target.names = ["caller", "f", "g"] ∧ item.Abandoned s s' := by
  intro int before item s s'
  have he : item.lower s = .error ⟨.unknownVariable "z", 7⟩ s' :=
    Lowering.lower_of_failure? (by decide +kernel)
  exact ⟨he, by decide +kernel, by decide +kernel, (Item.lower_leaves_no_trace before item he).1⟩

end ImpFront

import Mathlib
import ImpFront.Proofs.Body

/-! Lowering does not look into its target. It only performs operations, on functions and blocks
that it was handed out and after the target was told where to write. So if two targets answer such
operations alike, and stay related by a relation `R`, the same source compiles into both with the
same diagnostics and leaves them related. `Known` is what lowering has been told so far, and every
later statement is in terms of it. -/

namespace ImpFront

open Lower

/-- What lowering knows of its target. -/
structure Known where
  /-- Functions that it was handed out. -/
  functions : List FunctionId
  /-- The function that is lowered. -/
  owner : Option FunctionId
  /-- Blocks that were appended to it. -/
  blocks : List BlockRef
  /-- Whether the target is positioned at one of them. -/
  placed : Bool

namespace Known

/-- What is known between two items. -/
def nothing : Known := ⟨[], none, [], false⟩

/-- What is known where a body is begun. -/
def enter (w : Known) (f : FunctionId) : Known := ⟨w.functions, some f, [], false⟩

/-- Nothing that was known is forgotten while a function is lowered. -/
structure Grows (w w' : Known) : Prop where
  functions : w.functions ⊆ w'.functions
  owner : w'.owner = w.owner
  blocks : w.blocks ⊆ w'.blocks
  placed : w.placed = true → w'.placed = true

variable {w w' w'' : Known}

theorem Grows.refl (w : Known) : w.Grows w := ⟨fun _ h => h, rfl, fun _ h => h, id⟩

theorem Grows.trans (h : w.Grows w') (h' : w'.Grows w'') : w.Grows w'' :=
  ⟨List.Subset.trans h.functions h'.functions, h'.owner.trans h.owner,
    List.Subset.trans h.blocks h'.blocks, fun hp => h'.placed (h.placed hp)⟩

end Known

namespace Op

/-- How lowering uses an operation: instructions once the target is positioned, branches and
positions for blocks that it was handed out, new blocks in the function that is lowered. -/
def Admissible (w : Known) {α : Type} : Op α → Prop
  | .constInt _ | .constDouble _ | .isTerminated | .declareFunction .. | .getFunction _
  | .functionParam .. => True
  | .load .. | .store .. | .arith .. | .compare .. | .cast .. | .stackAlloc .. | .heapAlloc ..
  | .heapFree _ | .ret _ | .unreachable | .comment _ => w.placed = true
  | .call f _ => w.placed = true ∧ f ∈ w.functions
  | .appendBlock f _ => w.owner = some f
  | .branch target => w.placed = true ∧ target ∈ w.blocks
  | .condBranch _ yes no => w.placed = true ∧ yes ∈ w.blocks ∧ no ∈ w.blocks
  | .positionAtEnd block => block ∈ w.blocks
  | .discardFunction f | .clearBody f => f ∈ w.functions

/-- Whether the operation needs a position at most, and hands out neither functions nor blocks. -/
def isCode {α : Type} : Op α → Bool
  | .constInt _ | .constDouble _ | .isTerminated | .functionParam .. | .load .. | .store ..
  | .arith .. | .compare .. | .cast .. | .stackAlloc .. | .heapAlloc .. | .heapFree _ | .ret _
  | .unreachable | .comment _ => true
  | .call .. | .appendBlock .. | .branch _ | .condBranch .. | .positionAtEnd _
  | .declareFunction .. | .getFunction _ | .discardFunction _ | .clearBody _ => false

theorem admissible_of_isCode {α : Type} {op : Op α} (h : op.isCode = true) {w : Known}
    (hw : w.placed = true) :
    op.Admissible w := by
  cases op <;> first | exact hw | trivial

/-- What is known after an operation. -/
def next (w : Known) {α : Type} : Op α → α → Known
  | .appendBlock .., b => { w with blocks := b :: w.blocks }
  | .positionAtEnd _, _ => { w with placed := true }
  | .declareFunction .., f => { w with functions := f :: w.functions }
  | .getFunction _, f => { w with functions := f.toList ++ w.functions }
  | .discardFunction _, _ | .clearBody _, _ => .nothing
  | _, _ => w

theorem next_of_isCode {α : Type} {op : Op α} (h : op.isCode = true) (w : Known) (a : α) :
    op.next w a = w := by
  cases op <;> first | rfl | cases h

end Op

/-- Two kinds of targets answer admissible operations alike and stay related. -/
structure Emitter.Answers {σ τ : Type} [Emitter σ] [Emitter τ] (R : Known → σ → τ → Prop) :
    Prop where
  perform : ∀ {w s t} {α : Type} (op : Op α), op.Admissible w → R w s t →
    ∃ a s' t', Emitter.perform op s = .ok a s' ∧ Emitter.perform op t = .ok a t' ∧
      R (op.next w a) s' t'

/-- They also stay related from one item to the next. -/
structure Emitter.Related {σ τ : Type} [Emitter σ] [Emitter τ] (R : Known → σ → τ → Prop) : Prop
    extends Emitter.Answers R where
  forget : ∀ {w s t}, R w s t → R .nothing s t
  enter : ∀ {w s t f}, f ∈ w.functions → R w s t → R (w.enter f) s t

/-- The same state with another target. -/
def Lowering.retarget {σ τ : Type} (s : Lowering σ) (t : τ) : Lowering τ :=
  ⟨t, s.signatures, s.scopes, s.current, s.temporaries⟩

/-- The function that is lowered is the one that is known to be. -/
def Lowering.Tied {σ : Type} (s : Lowering σ) (w : Known) : Prop :=
  s.current.map Current.function = w.owner

variable {σ τ : Type} {R : Known → σ → τ → Prop} {α β : Type} {w : Known}

namespace Lower

/-- From related targets, the two computations end alike, in related targets; a result has the
property `P`. -/
def Alike (R : Known → σ → τ → Prop) (w : Known) (x : Lower σ α) (y : Lower τ α)
    (P : α → Known → Prop) : Prop :=
  ∀ (s : Lowering σ) (t : τ), R w s.target t → s.Tied w → ∃ w' s' t',
    w.Grows w' ∧ R w' s'.target t' ∧ s'.Tied w' ∧
    ((∃ a, x s = .ok a s' ∧ y (s.retarget t) = .ok a (s'.retarget t') ∧ P a w') ∨
      ∃ e, x s = .error e s' ∧ y (s.retarget t) = .error e (s'.retarget t'))

/-- Two computations that are alike wherever the targets are positioned. -/
def Uniform (R : Known → σ → τ → Prop) (x : Lower σ α) (y : Lower τ α) : Prop :=
  ∀ w, w.placed = true → Alike R w x y fun _ _ => True

section

variable {x : Lower σ α} {y : Lower τ α} {k : α → Lower σ β} {l : α → Lower τ β}
  {P : α → Known → Prop} {Q : β → Known → Prop}

theorem Alike.bind (hx : Alike R w x y P)
    (hk : ∀ a w', w.Grows w' → P a w' → Alike R w' (k a) (l a) Q) :
    Alike R w (x >>= k) (y >>= l) Q := by
  intro s t hR hs
  obtain ⟨w₁, s₁, t₁, hw₁, hR₁, hs₁, ⟨a, hxa, hya, hP⟩ | ⟨e, hxe, hye⟩⟩ := hx s t hR hs
  · obtain ⟨w₂, s₂, t₂, hw₂, hR₂, hs₂, hend⟩ := hk a w₁ hw₁ hP s₁ t₁ hR₁ hs₁
    refine ⟨w₂, s₂, t₂, hw₁.trans hw₂, hR₂, hs₂, ?_⟩
    rwa [bind_of_ok hxa, bind_of_ok hya]
  · exact ⟨w₁, s₁, t₁, hw₁, hR₁, hs₁, .inr ⟨e, bind_of_error hxe, bind_of_error hye⟩⟩

theorem Alike.imp {P' : α → Known → Prop} (hx : Alike R w x y P)
    (hP : ∀ a w', w.Grows w' → P a w' → P' a w') :
    Alike R w x y P' := by
  intro s t hR hs
  obtain ⟨w₁, s₁, t₁, hw₁, hR₁, hs₁, ⟨a, hxa, hya, h⟩ | herr⟩ := hx s t hR hs
  · exact ⟨w₁, s₁, t₁, hw₁, hR₁, hs₁, .inl ⟨a, hxa, hya, hP a w₁ hw₁ h⟩⟩
  · exact ⟨w₁, s₁, t₁, hw₁, hR₁, hs₁, .inr herr⟩

theorem Uniform.bind (hx : Uniform R x y) (hk : ∀ a, Uniform R (k a) (l a)) :
    Uniform R (x >>= k) (y >>= l) :=
  fun w hw => (hx w hw).bind fun a w' hw' _ => hk a w' (hw'.placed hw)

theorem alike_pure {a : α} (h : P a w) : Alike R w (pure a) (pure a) P :=
  fun s t hR hs => ⟨w, s, t, .refl w, hR, hs, .inl ⟨a, rfl, rfl, h⟩⟩

theorem uniform_pure (a : α) : Uniform R (pure a) (pure a) := fun _ _ => alike_pure trivial

theorem alike_raise (e : LowerError) : Alike R w (raise e) (raise e) P :=
  fun s t hR hs => ⟨w, s, t, .refl w, hR, hs, .inr ⟨e, rfl, rfl⟩⟩

theorem uniform_fail (pos : Nat) (fault : Fault) :
    Uniform R (fail pos fault : Lower σ α) (fail pos fault) :=
  fun _ _ => alike_raise _

end

/-- A step that changes the state and not its target. -/
theorem alike_inner {x : Lower σ α} {y : Lower τ α} {P : α → Known → Prop}
    (h : ∀ s : Lowering σ, ∃ s', (∀ t,
      (∃ a, x s = .ok a s' ∧ y (s.retarget t) = .ok a (s'.retarget t) ∧ P a w) ∨
        ∃ e, x s = .error e s' ∧ y (s.retarget t) = .error e (s'.retarget t)) ∧
      s'.target = s.target ∧ s'.current = s.current) : Alike R w x y P := by
  intro s t hs htied
  obtain ⟨s', hend, htarget, hcurrent⟩ := h s
  refine ⟨w, s', t, .refl w, htarget ▸ hs, ?_, hend t⟩
  rw [Lowering.Tied, hcurrent]
  exact htied

theorem alike_current :
    Alike R w current current fun c w' => w' = w ∧ w.owner = some c.function := by
  intro s t hs htied
  refine ⟨w, s, t, .refl w, hs, htied, ?_⟩
  have hc : (s.retarget t).current = s.current := rfl
  rw [Lowering.Tied] at htied
  cases hcur : s.current with
  | none => exact .inr ⟨_, by simp only [current, hcur]; rfl, by simp only [current, hc, hcur]⟩
  | some c =>
    rw [hcur] at htied
    exact .inl ⟨c, by simp only [current, hcur], by simp only [current, hc, hcur], rfl, htied.symm⟩

theorem uniform_current : Uniform R current current :=
  fun _ _ => alike_current.imp fun _ _ _ _ => trivial

theorem uniform_scopes : Uniform R scopes scopes :=
  fun _ _ => alike_inner fun s => ⟨s, fun _ => .inl ⟨_, rfl, rfl, trivial⟩, rfl, rfl⟩

theorem uniform_pushScope : Uniform R pushScope pushScope :=
  fun _ _ => alike_inner fun _ => ⟨_, fun _ => .inl ⟨_, rfl, rfl, trivial⟩, rfl, rfl⟩

theorem uniform_popScope : Uniform R popScope popScope := by
  refine fun _ _ => alike_inner fun s => ?_
  have hsc : ∀ t : τ, (s.retarget t).scopes = s.scopes := fun _ => rfl
  simp only [popScope, hsc]
  cases s.scopes with
  | nil => exact ⟨_, fun _ => .inr ⟨_, rfl, rfl⟩, rfl, rfl⟩
  | cons f fs => exact ⟨_, fun _ => .inl ⟨_, rfl, rfl, trivial⟩, rfl, rfl⟩

theorem uniform_declare (pos : Nat) (x : String) (l : Local Value) :
    Uniform R (declare pos x l) (declare pos x l) := by
  refine fun _ _ => alike_inner fun s => ?_
  have hsc : ∀ t : τ, (s.retarget t).scopes = s.scopes := fun _ => rfl
  simp only [declare, hsc]
  cases s.scopes.declare x l with
  | error fault => exact ⟨_, fun _ => .inr ⟨_, rfl, rfl⟩, rfl, rfl⟩
  | ok sc => exact ⟨_, fun _ => .inl ⟨_, rfl, rfl, trivial⟩, rfl, rfl⟩

theorem uniform_resolve (pos : Nat) (x : String) : Uniform R (resolve pos x) (resolve pos x) := by
  refine fun _ _ => alike_inner fun s => ?_
  have hsc : ∀ t : τ, (s.retarget t).scopes = s.scopes := fun _ => rfl
  simp only [resolve, hsc]
  cases s.scopes.lookup x with
  | none => exact ⟨_, fun _ => .inr ⟨_, rfl, rfl⟩, rfl, rfl⟩
  | some r => exact ⟨_, fun _ => .inl ⟨_, rfl, rfl, trivial⟩, rfl, rfl⟩

theorem alike_signatureOf (pos : Nat) (f : String) :
    Alike R w (signatureOf pos f) (signatureOf pos f) fun _ w' => w' = w := by
  refine alike_inner fun s => ?_
  have hsig : ∀ t : τ, (s.retarget t).signatures = s.signatures := fun _ => rfl
  refine ⟨s, fun t => ?_, rfl, rfl⟩
  cases hf : s.signatures.find? f with
  | none =>
    exact .inr ⟨_, by simp only [signatureOf, hf]; rfl, by simp only [signatureOf, hsig, hf]⟩
  | some signature =>
    exact .inl ⟨signature, by simp only [signatureOf, hf], by simp only [signatureOf, hsig, hf],
      rfl⟩

theorem alike_isDefined (f : String) : Alike R w (isDefined f) (isDefined f) fun _ _ => True :=
  alike_inner fun _ => ⟨_, fun _ => .inl ⟨_, rfl, rfl, trivial⟩, rfl, rfl⟩

theorem alike_register (p : Prototype) : Alike R w (register p) (register p) fun _ _ => True := by
  refine alike_inner fun s => ?_
  have hsig : ∀ t : τ, (s.retarget t).signatures = s.signatures := fun _ => rfl
  simp only [register, hsig]
  cases s.signatures.register p.name p.signature with
  | error fault => exact ⟨_, fun _ => .inr ⟨_, rfl, rfl⟩, rfl, rfl⟩
  | ok Γ => exact ⟨_, fun _ => .inl ⟨_, rfl, rfl, trivial⟩, rfl, rfl⟩

theorem uniform_pushTemporary (v : Value) : Uniform R (pushTemporary v) (pushTemporary v) :=
  fun _ _ => alike_inner fun _ => ⟨_, fun _ => .inl ⟨_, rfl, rfl, trivial⟩, rfl, rfl⟩

theorem uniform_dropTemporary : Uniform R dropTemporary dropTemporary :=
  fun _ _ => alike_inner fun _ => ⟨_, fun _ => .inl ⟨_, rfl, rfl, trivial⟩, rfl, rfl⟩

theorem uniform_takeTemporaries : Uniform R takeTemporaries takeTemporaries :=
  fun _ _ => alike_inner fun _ => ⟨_, fun _ => .inl ⟨_, rfl, rfl, trivial⟩, rfl, rfl⟩

variable [Emitter σ] [Emitter τ] (hR : Emitter.Answers R)

include hR

theorem emit_alike {op : Op α} {s : Lowering σ} {t : τ} (h : op.Admissible w)
    (hs : R w s.target t) :
    ∃ a s' t', emit op s = .ok a { s with target := s' } ∧
      emit op (s.retarget t) = .ok a (Lowering.retarget { s with target := s' } t') ∧
      R (op.next w a) s' t' := by
  obtain ⟨a, s', t', hσ, hτ, hR'⟩ := hR.perform op h hs
  refine ⟨a, s', t', ?_, ?_, hR'⟩
  · simp only [emit, hσ]
  · have hτ : Emitter.perform op (s.retarget t).target = .ok a t' := hτ
    simp only [emit, hτ]
    rfl

theorem alike_emit (op : Op α) (h : op.Admissible w) (hgrows : ∀ a, w.Grows (op.next w a)) :
    Alike R w (emit op) (emit op) fun a w' => w' = op.next w a := by
  intro s t hs htied
  obtain ⟨a, s', t', hσ, hτ, hR'⟩ := emit_alike hR h hs
  refine ⟨op.next w a, { s with target := s' }, t', hgrows a, hR', ?_, .inl ⟨a, hσ, hτ, rfl⟩⟩
  exact htied.trans (hgrows a).owner.symm

theorem uniform_emit (op : Op α) (h : op.isCode = true) : Uniform R (emit op) (emit op) := by
  intro w hw
  have hnext := op.next_of_isCode h w
  refine (alike_emit hR op (Op.admissible_of_isCode h hw) fun a => ?_).imp fun _ _ _ _ => trivial
  rw [hnext]
  exact .refl w

theorem uniform_isTerminated : Uniform R (emit .isTerminated) (emit .isTerminated) :=
  uniform_emit hR _ rfl

theorem uniform_comment (text : String) : Uniform R (comment text) (comment text) :=
  uniform_emit hR _ rfl

theorem alike_positionAtEnd {b : BlockRef} (hb : b ∈ w.blocks) :
    Alike R w (emit (.positionAtEnd b)) (emit (.positionAtEnd b)) fun _ w' =>
      w' = { w with placed := true } :=
  alike_emit hR (.positionAtEnd b) hb fun _ => ⟨fun _ h => h, rfl, fun _ h => h, fun _ => rfl⟩

theorem alike_appendBlock {f : FunctionId} (hf : w.owner = some f) (hint : String) :
    Alike R w (emit (.appendBlock f hint)) (emit (.appendBlock f hint)) fun b w' =>
      w' = { w with blocks := b :: w.blocks } :=
  alike_emit hR (.appendBlock f hint) hf fun _ =>
    ⟨fun _ h => h, rfl, List.subset_cons_self _ _, id⟩

theorem alike_getFunction (name : String) :
    Alike R w (emit (.getFunction name)) (emit (.getFunction name)) fun f w' =>
      w' = { w with functions := f.toList ++ w.functions } :=
  alike_emit hR (.getFunction name) trivial fun _ =>
    ⟨List.subset_append_right _ _, rfl, fun _ h => h, id⟩

theorem alike_functionHandle (pos : Nat) (name : String) :
    Alike R w (functionHandle pos name) (functionHandle pos name) fun f w' => f ∈ w'.functions := by
  refine (alike_getFunction hR name).bind fun f w₁ _ hw₁ => ?_
  cases f with
  | some f => exact alike_pure (by rw [hw₁]; exact List.mem_cons_self)
  | none =>
    refine (alike_signatureOf pos name).bind fun signature w₂ _ hw₂ => ?_
    refine (alike_emit hR (.declareFunction name signature) trivial fun _ =>
      ⟨List.subset_cons_self _ _, rfl, fun _ h => h, id⟩).imp fun f w₃ _ hw₃ => ?_
    rw [hw₃]
    exact List.mem_cons_self

theorem uniform_release (vs : List Value) : Uniform R (release vs) (release vs) := by
  induction vs with
  | nil => exact uniform_pure ()
  | cons v vs ih => exact (uniform_emit hR _ rfl).bind fun _ => ih

theorem uniform_releaseTemporaries : Uniform R releaseTemporaries releaseTemporaries := by
  refine uniform_takeTemporaries.bind fun cells => ?_
  split
  · exact uniform_release hR cells
  · exact (uniform_comment hR _).bind fun _ => uniform_release hR cells

theorem uniform_deref (t : Typed) : Uniform R (deref t) (deref t) := by
  unfold deref
  split
  · exact (uniform_emit hR _ rfl).bind fun _ => uniform_pure _
  · exact uniform_pure t

theorem uniform_toPrim (t : Typed) : Uniform R (toPrim t) (toPrim t) := by
  refine (uniform_deref hR t).bind fun u => ?_
  split
  · exact (uniform_emit hR _ rfl).bind fun _ => uniform_pure _
  · exact uniform_pure _
  · exact uniform_pure _

theorem uniform_coerce (t : Typed) (p : Prim) : Uniform R (coerce t p) (coerce t p) := by
  refine (uniform_toPrim hR t).bind fun v => ?_
  dsimp only
  split
  · exact uniform_emit hR _ rfl
  · exact uniform_emit hR _ rfl
  · exact uniform_pure _

theorem uniform_coerceTo (pos : Nat) (t : Typed) (ty : Ty) :
    Uniform R (coerceTo pos t ty) (coerceTo pos t ty) := by
  unfold coerceTo
  split
  · exact uniform_coerce hR t _
  · split
    · exact uniform_pure _
    · exact uniform_fail _ _

theorem uniform_zero (p : Prim) : Uniform R (zero p) (zero p) := by
  cases p <;> exact uniform_emit hR _ rfl

theorem uniform_condition (t : Typed) : Uniform R (condition t) (condition t) := by
  refine (uniform_deref hR t).bind fun u => ?_
  split
  · exact uniform_pure _
  · refine (uniform_toPrim hR u).bind fun v => (uniform_zero hR v.2).bind fun z => ?_
    exact uniform_emit hR _ rfl

theorem uniform_copyToHeap (p : Prim) (ptr : Value) :
    Uniform R (copyToHeap p ptr) (copyToHeap p ptr) := by
  refine (uniform_emit hR _ rfl).bind fun cell => ?_
  refine (uniform_emit hR _ rfl).bind fun value => ?_
  exact (uniform_emit hR _ rfl).bind fun _ => uniform_pure cell

theorem uniform_combine (op : BinOp) (l r : Typed) :
    Uniform R (combine op l r) (combine op l r) := by
  refine (uniform_toPrim hR l).bind fun v => (uniform_toPrim hR r).bind fun w => ?_
  refine (uniform_coerce hR _ _).bind fun v' => (uniform_coerce hR _ _).bind fun w' => ?_
  cases op <;> exact (uniform_emit hR _ rfl).bind fun _ => uniform_pure _

theorem uniform_read (l : Local Value) : Uniform R (read l) (read l) := by
  unfold read
  split
  · exact uniform_pure _
  · exact (uniform_emit hR _ rfl).bind fun _ => uniform_pure _

theorem uniform_call (pos : Nat) (callee : String) (ret : Ty) (args : List Value) :
    Uniform R (call pos callee ret args) (call pos callee ret args) := by
  intro w hw
  refine (alike_functionHandle hR pos callee).bind fun f w₁ hw₁ hf => ?_
  have hcall := alike_emit hR (.call f args) ⟨hw₁.placed hw, hf⟩ fun _ => .refl w₁
  refine hcall.bind fun v w₂ hw₂ _ => ?_
  have hplaced := hw₂.placed (hw₁.placed hw)
  split
  · exact ((uniform_pushTemporary v).bind fun _ => uniform_pure _) w₂ hplaced
  · exact uniform_pure _ w₂ hplaced

theorem uniform_declareNames (pos : Nat) (ty : Ty) (xs : List String) :
    Uniform R (declareNames pos ty xs) (declareNames pos ty xs) := by
  induction xs with
  | nil => exact uniform_pure ()
  | cons x xs ih =>
    refine uniform_scopes.bind fun sc => ?_
    split
    · exact uniform_fail _ _
    · cases ty with
      | plain p =>
        exact (uniform_emit hR _ rfl).bind fun _ => (uniform_declare _ _ _).bind fun _ => ih
      | pointer p =>
        exact (uniform_emit hR _ rfl).bind fun _ => (uniform_declare _ _ _).bind fun _ => ih

theorem uniform_bindParams (f : FunctionId) (ps : List Param) :
    ∀ i, Uniform R (bindParams f i ps) (bindParams f i ps) := by
  induction ps with
  | nil => exact fun _ => uniform_pure ()
  | cons p ps ih =>
    intro i
    refine (uniform_emit hR _ rfl).bind fun v => ?_
    obtain ⟨pos, x, ty⟩ := p
    cases ty with
    | plain q =>
      refine (uniform_emit hR _ rfl).bind fun slot => ?_
      refine (uniform_emit hR _ rfl).bind fun _ => ?_
      exact (uniform_declare _ _ _).bind fun _ => ih _
    | pointer q => exact (uniform_declare _ _ _).bind fun _ => ih _

end Lower

section

variable [Emitter σ] [Emitter τ] (hR : Emitter.Answers R)

include hR

mutual

theorem Expr.lower_uniform : ∀ e : Expr, Uniform R e.lower e.lower
  | .int _ w => (uniform_emit hR (.constInt w) rfl).bind fun _ => uniform_pure _
  | .double _ x => (uniform_emit hR (.constDouble x) rfl).bind fun _ => uniform_pure _
  | .var pos x => (uniform_resolve pos x).bind fun l => uniform_read hR l
  | .binary _ op l r =>
    l.lower_uniform.bind fun t => r.lower_uniform.bind fun u => uniform_combine hR op t u
  | .call pos f args => by
    refine Uniform.bind (fun w _ => (alike_signatureOf pos f).imp fun _ _ _ _ => trivial)
      fun signature => ?_
    split
    · exact uniform_fail _ _
    · exact (Expr.lowerArgs_uniform args signature.params).bind fun vs =>
        uniform_call hR pos f signature.ret vs

theorem Expr.lowerArgs_uniform : ∀ (es : List Expr) (tys : List Ty),
    Uniform R (Expr.lowerArgs es tys) (Expr.lowerArgs es tys)
  | [], _ => uniform_pure _
  | _ :: _, [] => uniform_pure _
  | e :: es, ty :: tys =>
    e.lower_uniform.bind fun t => (uniform_coerceTo hR e.pos t ty).bind fun _ =>
      (Expr.lowerArgs_uniform es tys).bind fun _ => uniform_pure _

end

namespace Lower

theorem uniform_assign (pos : Nat) (x : String) (e : Expr) :
    Uniform R (assign pos x e) (assign pos x e) := by
  refine (uniform_resolve pos x).bind fun l => (e.lower_uniform hR).bind fun t => ?_
  refine (uniform_coerceTo hR pos t l.ty).bind fun v => ?_
  have hstore : ∀ w, Uniform R (emit (.store w l.storage) >>= fun _ => releaseTemporaries)
      (emit (.store w l.storage) >>= fun _ => releaseTemporaries) :=
    fun w => (uniform_emit hR _ rfl).bind fun _ => uniform_releaseTemporaries hR
  split
  · exact (uniform_emit hR _ rfl).bind hstore
  · exact hstore v

theorem uniform_result (ret : Ty) (e : Expr) (spared : Bool) (v : Value) :
    Uniform R (result ret e spared v) (result ret e spared v) := by
  unfold result
  split
  · exact uniform_pure v
  · split
    · exact uniform_dropTemporary.bind fun _ => uniform_pure v
    · split
      · exact uniform_pure v
      · exact uniform_copyToHeap hR _ v

theorem uniform_giveBack (pos : Nat) (e : Expr) : Uniform R (giveBack pos e) (giveBack pos e) := by
  refine uniform_current.bind fun c => uniform_scopes.bind fun sc =>
    (e.lower_uniform hR).bind fun t => ?_
  refine (uniform_coerceTo hR pos t c.ret).bind fun v => (uniform_result hR _ _ _ _).bind fun w =>
    ?_
  refine (uniform_releaseTemporaries hR).bind fun _ => uniform_scopes.bind fun sc => ?_
  exact (uniform_release hR _).bind fun _ => uniform_emit hR _ rfl

theorem uniform_test (e : Expr) : Uniform R (test e) (test e) :=
  (e.lower_uniform hR).bind fun t => (uniform_condition hR t).bind fun _ =>
    (uniform_releaseTemporaries hR).bind fun _ => uniform_pure _

theorem alike_branchUnlessTerminated {b : BlockRef} (hw : w.placed = true) (hb : b ∈ w.blocks) :
    Alike R w (branchUnlessTerminated b) (branchUnlessTerminated b) fun _ _ => True := by
  refine (uniform_isTerminated hR w hw).bind fun t w₁ hw₁ _ => ?_
  cases t with
  | true => exact alike_pure trivial
  | false =>
    exact (alike_emit hR (.branch b) ⟨hw₁.placed hw, hw₁.blocks hb⟩ fun _ =>
      .refl w₁).imp fun _ _ _ _ => trivial

theorem uniform_leaveScope : Uniform R leaveScope leaveScope := by
  refine uniform_popScope.bind fun frame => (uniform_isTerminated hR).bind fun t => ?_
  split
  · exact uniform_pure ()
  · dsimp only
    split
    · exact uniform_release hR _
    · exact (uniform_comment hR _).bind fun _ => uniform_release hR _

/-- The three blocks that a statement with branches adds to the function that is lowered. -/
theorem alike_fork {f : FunctionId} {first second third : String}
    {k : BlockRef → BlockRef → BlockRef → Lower σ Unit}
    {l : BlockRef → BlockRef → BlockRef → Lower τ Unit}
    (hw : w.placed = true) (hf : w.owner = some f)
    (h : ∀ a b c w', w'.placed = true → a ∈ w'.blocks → b ∈ w'.blocks → c ∈ w'.blocks →
      Alike R w' (k a b c) (l a b c) fun _ _ => True) :
    Alike R w (emit (.appendBlock f first) >>= fun a => emit (.appendBlock f second) >>= fun b =>
        emit (.appendBlock f third) >>= fun c => k a b c)
      (emit (.appendBlock f first) >>= fun a => emit (.appendBlock f second) >>= fun b =>
        emit (.appendBlock f third) >>= fun c => l a b c) fun _ _ => True := by
  refine (alike_appendBlock hR hf first).bind fun a w₁ _ hw₁ => ?_
  refine (alike_appendBlock hR (by rw [hw₁]; exact hf) second).bind fun b w₂ _ hw₂ => ?_
  refine (alike_appendBlock hR (by rw [hw₂, hw₁]; exact hf) third).bind fun c w₃ _ hw₃ => ?_
  subst hw₁ hw₂ hw₃
  exact h a b c _ hw (by simp) (by simp) (by simp)

/-- An arm of a branch. -/
theorem alike_arm {x : Lower σ Unit} {y : Lower τ Unit} {i j : BlockRef} {k : Unit → Lower σ Unit}
    {l : Unit → Lower τ Unit} (hx : Uniform R x y) (hi : i ∈ w.blocks) (hj : j ∈ w.blocks)
    (h : ∀ w', w'.placed = true → w.blocks ⊆ w'.blocks → Alike R w' (k ()) (l ()) fun _ _ => True) :
    Alike R w (emit (.positionAtEnd i) >>= fun _ => x >>= fun _ => branchUnlessTerminated j >>= k)
      (emit (.positionAtEnd i) >>= fun _ => y >>= fun _ => branchUnlessTerminated j >>= l)
        fun _ _ => True := by
  refine (alike_positionAtEnd hR hi).bind fun _ w₁ hw₁ he => ?_
  have hplaced : w₁.placed = true := by rw [he]
  refine (hx w₁ hplaced).bind fun _ w₂ hw₂ _ => ?_
  have hbranch := alike_branchUnlessTerminated hR (hw₂.placed hplaced) (hw₂.blocks (hw₁.blocks hj))
  refine hbranch.bind fun _ w₃ hw₃ _ => ?_
  exact h w₃ (hw₃.placed (hw₂.placed hplaced)) ((hw₁.trans hw₂).trans hw₃).blocks

end Lower

mutual

theorem Stmt.lower_uniform : ∀ s : Stmt, Uniform R s.lower s.lower
  | .declaration pos ty xs => (uniform_comment hR _).bind fun _ => uniform_declareNames hR pos ty xs
  | .assignment pos x e => (uniform_comment hR _).bind fun _ => uniform_assign hR pos x e
  | .ret pos e => (uniform_comment hR _).bind fun _ => uniform_giveBack hR pos e
  | .ifElse _ c yes no => by
    intro w hw
    refine (uniform_comment hR _ w hw).bind fun _ w₁ hw₁ _ =>
      alike_current.bind fun cur w₂ hw₂ hcur => ?_
    obtain ⟨rfl, howner⟩ := hcur
    refine (uniform_test hR c w₂ (hw₁.placed hw)).bind fun v w₃ hw₃ _ => ?_
    refine alike_fork hR (hw₃.placed (hw₁.placed hw)) (hw₃.owner.trans howner)
      fun i j k w₄ hw₄ hi hj hk => ?_
    have hbranch := alike_emit hR (.condBranch v i j) ⟨hw₄, hi, hj⟩ fun _ => .refl w₄
    refine hbranch.bind fun _ w₅ hw₅ _ => ?_
    refine alike_arm hR yes.lower_uniform (hw₅.blocks hi) (hw₅.blocks hk) fun w₆ _ hw₆ => ?_
    refine alike_arm hR no.lower_uniform (hw₆ (hw₅.blocks hj)) (hw₆ (hw₅.blocks hk)) fun w₇ _ hw₇ =>
      ?_
    exact (alike_positionAtEnd hR (hw₇ (hw₆ (hw₅.blocks hk)))).imp fun _ _ _ _ => trivial
  | .loop _ c body => by
    intro w hw
    refine (uniform_comment hR _ w hw).bind fun _ w₁ hw₁ _ =>
      alike_current.bind fun cur w₂ hw₂ hcur => ?_
    obtain ⟨rfl, howner⟩ := hcur
    refine alike_fork hR (hw₁.placed hw) howner fun i j k w₃ hw₃ hi hj hk => ?_
    refine (alike_branchUnlessTerminated hR hw₃ hi).bind fun _ w₄ hw₄ _ => ?_
    refine (alike_positionAtEnd hR (hw₄.blocks hi)).bind fun _ w₅ hw₅ _ => ?_
    refine (uniform_test hR c w₅ (hw₅.placed (hw₄.placed hw₃))).bind fun v w₆ hw₆ _ => ?_
    have hgrows := (hw₄.trans hw₅).trans hw₆
    have hbranch :=
      alike_emit hR (.condBranch v j k) ⟨hgrows.placed hw₃, hgrows.blocks hj, hgrows.blocks hk⟩
      fun _ => .refl w₆
    refine hbranch.bind fun _ w₇ hw₇ _ => ?_
    have hblocks := (hgrows.trans hw₇).blocks
    refine alike_arm hR body.lower_uniform (hblocks hj) (hblocks hi) fun w₈ _ hw₈ => ?_
    exact (alike_positionAtEnd hR (hw₈ (hblocks hk))).imp fun _ _ _ _ => trivial
  | .block b => b.lower_uniform

theorem Block.lower_uniform : ∀ b : Block, Uniform R b.lower b.lower
  | .mk _ ss =>
    uniform_pushScope.bind fun _ => (Stmt.lowerList_uniform ss).bind fun _ => uniform_leaveScope hR

theorem Stmt.lowerList_uniform : ∀ ss : List Stmt, Uniform R (Stmt.lowerList ss) (Stmt.lowerList ss)
  | [] => uniform_pure ()
  | s :: ss => by
    refine (uniform_isTerminated hR).bind fun t => ?_
    split
    · exact uniform_comment hR _
    · exact s.lower_uniform.bind fun _ => Stmt.lowerList_uniform ss

end

theorem Lower.uniform_fallOff (ret : Ty) : Uniform R (fallOff ret) (fallOff ret) := by
  refine (uniform_isTerminated hR).bind fun t => ?_
  split
  · exact uniform_pure ()
  · refine uniform_popScope.bind fun frame => (uniform_release hR _).bind fun _ => ?_
    split
    · exact uniform_emit hR _ rfl
    · exact (uniform_zero hR _).bind fun z => uniform_emit hR _ rfl

theorem Definition.lowerBody_alike (d : Definition) {f : FunctionId} (hf : w.owner = some f) :
    Alike R w (d.lowerBody f) (d.lowerBody f) fun _ _ => True := by
  refine (alike_appendBlock hR hf "entry").bind fun b w₁ _ hw₁ => ?_
  have hb : b ∈ w₁.blocks := by rw [hw₁]; exact List.mem_cons_self
  refine (alike_positionAtEnd hR hb).bind fun _ w₂ _ hw₂ => ?_
  have hrest : Uniform R _ _ :=
    (uniform_comment hR ("function " ++ d.prototype.print)).bind fun _ =>
    uniform_pushScope.bind fun _ => (uniform_bindParams hR f d.prototype.params 0).bind fun _ =>
      (Stmt.lowerList_uniform hR d.body.statements).bind fun _ => uniform_fallOff hR d.prototype.ret
  exact hrest w₂ (by rw [hw₂])

end

variable [Emitter σ] [Emitter τ] (hR : Emitter.Related R)

include hR

namespace Lower

/-- Between items, the two computations end alike, and their targets are related again. -/
def Ends (R : Known → σ → τ → Prop) (x : Lower σ α) (y : Lower τ α) (s : Lowering σ) (t : τ) :
    Prop :=
  ∃ s' t', R .nothing s'.target t' ∧ s'.current = none ∧
    ((∃ a, x s = .ok a s' ∧ y (s.retarget t) = .ok a (s'.retarget t')) ∨
      ∃ e, x s = .error e s' ∧ y (s.retarget t) = .error e (s'.retarget t'))

theorem Ends.bind {x : Lower σ α} {y : Lower τ α} {k : α → Lower σ β} {l : α → Lower τ β}
    {P : α → Known → Prop} {s : Lowering σ}
    {t : τ} (hs : R w s.target t) (hcurrent : s.current = none) (howner : w.owner = none)
    (hx : Alike R w x y P) (hk : ∀ a w' s' t',
      R w' s'.target t' → s'.current = none → w'.owner = none → P a w' → Ends R (k a) (l a) s' t') :
    Ends R (x >>= k) (y >>= l) s t := by
  have htied : s.Tied w := by rw [Lowering.Tied, hcurrent, howner]; rfl
  obtain ⟨w', s', t', hw', hR', htied', hend⟩ := hx s t hs htied
  have howner' : w'.owner = none := hw'.owner.trans howner
  have hcurrent' : s'.current = none := by
    rw [Lowering.Tied, howner'] at htied'
    exact Option.map_eq_none_iff.1 htied'
  rcases hend with ⟨a, hxa, hya, hP⟩ | ⟨e, hxe, hye⟩
  · have hnext := hk a w' s' t' hR' hcurrent' howner' hP
    unfold Ends at hnext ⊢
    rwa [bind_of_ok hxa, bind_of_ok hya]
  · exact ⟨s', t', hR.forget hR', hcurrent', .inr ⟨e, bind_of_error hxe, bind_of_error hye⟩⟩

/-- A body is lowered as part of its function, and then the function is left, however the body
ends. -/
theorem Ends.attempt {x : Lower σ α} {y : Lower τ α} {k : Except LowerError α → Lower σ β}
    {l : Except LowerError α → Lower τ β} {s : Lowering σ} {t : τ} {f : FunctionId} (ret : Ty)
    (hs : R w s.target t) (hf : f ∈ w.functions) (hx : Alike R (w.enter f) x y fun _ _ => True)
    (hk : ∀ outcome w' s' t', R w' s'.target t' → s'.current = none → f ∈ w'.functions →
      Ends R (k outcome) (l outcome) s' t') :
    Ends R (enter (some ⟨f, ret⟩) >>= fun _ => Lower.attempt x >>= fun outcome =>
      enter none >>= fun _ => k outcome)
      (enter (some ⟨f, ret⟩) >>= fun _ => Lower.attempt y >>= fun outcome => enter none >>= fun _ =>
        l outcome) s t := by
  let s₁ : Lowering σ := { s with current := some ⟨f, ret⟩, scopes := [], temporaries := [] }
  obtain ⟨w', s', t', hw', hR', -, hend⟩ := hx s₁ t (hR.enter hf hs) rfl
  have hrest := fun outcome =>
    hk outcome w' { s' with current := none, scopes := [], temporaries := [] } t' hR' rfl
    (hw'.functions hf)
  have hσ : enter (some ⟨f, ret⟩) s = .ok () s₁ := rfl
  have hτ : enter (some ⟨f, ret⟩) (s.retarget t) = .ok () (s₁.retarget t) := rfl
  unfold Ends
  rw [bind_of_ok hσ, bind_of_ok hτ]
  -- an error is an outcome like any other here, so both ways go on
  rcases hend with ⟨a, hxa, hya, -⟩ | ⟨e, hxe, hye⟩
  · have hσ' : Lower.attempt x s₁ = .ok (.ok a) s' := by simp only [Lower.attempt, hxa]
    have hτ' : Lower.attempt y (s₁.retarget t) = .ok (.ok a) (s'.retarget t') := by
      simp only [Lower.attempt, hya]
    rw [bind_of_ok hσ', bind_of_ok hτ']
    exact hrest (.ok a)
  · have hσ' : Lower.attempt x s₁ = .ok (.error e) s' := by simp only [Lower.attempt, hxe]
    have hτ' : Lower.attempt y (s₁.retarget t) = .ok (.error e) (s'.retarget t') := by
      simp only [Lower.attempt, hye]
    rw [bind_of_ok hσ', bind_of_ok hτ']
    exact hrest (.error e)

/-- What is left of a failed body is taken back. -/
theorem Ends.takeBack (op : Op Unit) {s : Lowering σ} {t : τ} (hop : op.Admissible w)
    (hnext : op.next w () = .nothing) (hs : R w s.target t) (hcurrent : s.current = none)
    (e : LowerError) :
    Ends R (emit op >>= fun _ => (raise e : Lower σ α)) (emit op >>= fun _ => (raise e : Lower τ α))
      s t := by
  obtain ⟨_, s', t', hσ, hτ, hR'⟩ := emit_alike hR.toAnswers hop hs
  exact ⟨{ s with target := s' }, t', hnext ▸ hR', hcurrent, .inr ⟨e, bind_of_ok hσ, bind_of_ok hτ⟩⟩

end Lower

theorem Definition.lower_ends (d : Definition) {s : Lowering σ} {t : τ} (h : R .nothing s.target t)
    (hcurrent : s.current = none) : Ends R d.lower d.lower s t := by
  unfold Definition.lower
  simp only
  refine Ends.bind hR h hcurrent rfl (alike_isDefined _) fun b w₁ s₁ t₁ h₁ hc₁ ho₁ _ => ?_
  split
  · exact ⟨s₁, t₁, hR.forget h₁, hc₁, .inr ⟨_, rfl, rfl⟩⟩
  · refine Ends.bind hR h₁ hc₁ ho₁ (alike_register _) fun _ w₂ s₂ t₂ h₂ hc₂ ho₂ _ => ?_
    refine Ends.bind hR h₂ hc₂ ho₂ (alike_getFunction hR.toAnswers _) fun g w₃ s₃ t₃ h₃ hc₃ ho₃ _ =>
      ?_
    refine Ends.bind hR h₃ hc₃ ho₃ (alike_functionHandle hR.toAnswers _ _)
      fun f w₄ s₄ t₄ h₄ hc₄ ho₄ hf => ?_
    have hbody := d.lowerBody_alike hR.toAnswers (w := w₄.enter f) rfl
    refine Ends.attempt hR d.prototype.ret h₄ hf hbody fun outcome w₅ s₅ t₅ h₅ hc₅ hf₅ => ?_
    cases outcome with
    | ok _ =>
      refine ⟨{ s₅ with signatures := s₅.signatures.setDefined d.prototype.name }, t₅, hR.forget h₅,
        hc₅, .inl ⟨f, ?_, ?_⟩⟩
      · rfl
      · rfl
    | error e =>
      -- a function that was there before only loses its body
      dsimp only
      split
      · exact Ends.takeBack hR (.clearBody f) hf₅ rfl h₅ hc₅ e
      · exact Ends.takeBack hR (.discardFunction f) hf₅ rfl h₅ hc₅ e

theorem Item.lower_ends (item : Item) {s : Lowering σ} {t : τ} (h : R .nothing s.target t)
    (hcurrent : s.current = none) :
    Ends R item.lower item.lower s t := by
  cases item with
  | external p =>
    have hregister :=
      Ends.bind hR h hcurrent rfl (alike_register p) (k := fun _ => pure ()) (l := fun _ => pure ())
      fun _ w' s' t' h' hc' _ _ => ⟨s', t', hR.forget h', hc', .inl ⟨(), rfl, rfl⟩⟩
    simpa only [Item.lower, bind_pure_unit] using hregister
  | definition d =>
    obtain ⟨s', t', h', hc', ⟨f, hσ, hτ⟩ | ⟨e, hσ, hτ⟩⟩ := d.lower_ends hR h hcurrent
    · exact ⟨s', t', h', hc', .inl ⟨(), bind_of_ok hσ, bind_of_ok hτ⟩⟩
    · exact ⟨s', t', h', hc', .inr ⟨e, bind_of_error hσ, bind_of_error hτ⟩⟩

theorem Lowering.itemsFrom_related (n : Nat) (c : Cursor) (s : Lowering σ) (t : τ)
    (h : R .nothing s.target t) (hcurrent : s.current = none) :
    (itemsFrom (fun _ u => u) n c s).1 = (itemsFrom (fun _ u => u) n c (s.retarget t)).1 ∧
      R .nothing (itemsFrom (fun _ u => u) n c s).2.target (itemsFrom (fun _ u => u) n c
        (s.retarget t)).2.target := by
  induction n generalizing c s t with
  | zero => exact ⟨rfl, h⟩
  | succ n ih =>
    rw [itemsFrom, itemsFrom]
    split
    · exact ⟨rfl, h⟩
    · cases Item.parse c with
      | error e c' =>
        obtain ⟨hds, hlast⟩ := ih (c'.recover e) s t h hcurrent
        exact ⟨congrArg _ hds, hlast⟩
      | ok item c' =>
        obtain ⟨s', t', h', hc', ⟨a, hσ, hτ⟩ | ⟨e, hσ, hτ⟩⟩ := item.lower_ends hR h hcurrent
        · simp only [hσ, hτ]
          exact ih c' s' t' h' hc'
        · simp only [hσ, hτ]
          obtain ⟨hds, hlast⟩ := ih c' s' t' h' hc'
          exact ⟨congrArg _ hds, hlast⟩

/-- A source compiles into related targets with the same diagnostics, and leaves them related. -/
theorem compile_related (source : String) {s : σ} {t : τ} (h : R .nothing s t) :
    (compile source s).1 = (compile source t).1 ∧
    R .nothing (compile source s).2 (compile source t).2 :=
  Lowering.itemsFrom_related hR ((Cursor.ofSource source).rest.length + 1) (.ofSource source)
    (.ofTarget s) t h rfl

end ImpFront

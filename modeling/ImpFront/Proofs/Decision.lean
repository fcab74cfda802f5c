import Mathlib
import ImpFront.Proofs.Checker
import ImpFront.Proofs.Session

/-! Lowering decides what the checker decides. `Decides` ties a step of lowering to a check: both
succeed, with results that belong together, or both fail with the same error. It passes through
sequencing, so that lowering and checker are followed side by side, in the order of their steps;
where control is after a statement is read off its code. -/

namespace ImpFront

open Lower

def Frame.types (f : Frame Value) : TypeFrame := f.map fun d => (d.1, d.2.ty)

def Scopes.types (sc : Scopes Value) : List TypeFrame := sc.map Frame.types

theorem Frame.lookup_types (f : Frame Value) (x : String) :
    f.types.lookup x = (f.find? x).map Local.ty := by
  induction f with
  | nil => rfl
  | cons d f ih =>
    by_cases hx : d.1 = x
    · simp [types, find?, hx]
    · have hne : (x == d.1) = false := by simpa using Ne.symm hx
      simpa [types, find?, List.lookup, hx, hne] using ih

theorem Scopes.findSome?_types (sc : Scopes Value) (x : String) :
    (sc.types.findSome? fun f => f.lookup x) = (sc.lookup x).map fun r => r.2.ty := by
  induction sc with
  | nil => rfl
  | cons f sc ih =>
    have hcons : Scopes.types (f :: sc) = f.types :: Scopes.types sc := rfl
    rw [hcons, List.findSome?_cons, Frame.lookup_types, Scopes.lookup]
    cases f.find? x with
    | none => exact ih
    | some l => rfl

theorem PlainCode.prim {t : Typed} {n n' : Nat} {is : List Instr} {v : Value} {p : Prim}
    (h : PlainCode t n is v p n') :
    p = t.ty.prim := by
  cases h <;> rfl

theorem CombineCode.ty {op : BinOp} {l r t : Typed} {n n' : Nat} {is : List Instr}
    (h : CombineCode op l r n is t n') :
    t.ty = op.ty l.ty r.ty := by
  cases h with
  | mk hl hr _ _ =>
    rw [hl.prim, hr.prim]
    cases op <;> rfl

/-- Inside the scopes `sc`, the innermost one has the types `f`. -/
def Body.Innermost (B : Body) (sc : Scopes Value) (f : TypeFrame) : Prop :=
  ∃ frame : Frame Value, B.scopes = frame :: sc ∧ frame.types = f

namespace Site

variable {S : Site} {B : Body} {α β γ δ : Type}

/-- The step succeeds, with its scopes unchanged. -/
def Runs (S : Site) (B : Body) (x : Lower Recorder α) : Prop :=
  ∃ a B', x (S.state B) = .ok a (S.state B') ∧ B'.scopes = B.scopes

/-- Where the check succeeds so does the step, with a result and a body that fit it; where the check
fails, the step fails with its error. -/
def Decides (S : Site) (B : Body) (x : Lower Recorder α) (c : Except LowerError β)
    (P : α → β → Body → Prop) : Prop :=
  match c with
  | .ok b => ∃ a B', x (S.state B) = .ok a (S.state B') ∧ P a b B'
  | .error e => ∃ B', x (S.state B) = .error e (S.state B')

section

variable {x : Lower Recorder α} {k : α → Lower Recorder β} {c : Except LowerError γ}
  {f : γ → Except LowerError δ} {P : α → γ → Body → Prop}

theorem Runs.bind (hx : S.Runs B x) (hk : ∀ a B', S.Runs B' (k a)) : S.Runs B (x >>= k) := by
  obtain ⟨a, B', ha, hsc⟩ := hx
  obtain ⟨b, B'', hb, hsc'⟩ := hk a B'
  exact ⟨b, B'', (bind_of_ok ha).trans hb, hsc'.trans hsc⟩

theorem runs_pure (a : α) : S.Runs B (pure a) := ⟨a, B, rfl, rfl⟩

theorem runs_write {a : α} {is : List Instr} {n : Nat} {ts : List Value}
    {ds : List (String × Signature)} (h : x (S.state B) = .ok a (S.state (B.write is n ts ds))) :
    S.Runs B x :=
  ⟨a, _, h, rfl⟩

theorem Decides.bind {Q : β → δ → Body → Prop} (hx : S.Decides B x c P)
    (hk : ∀ a b B', x (S.state B) = .ok a (S.state B') → P a b B' → S.Decides B' (k a) (f b) Q) :
    S.Decides B (x >>= k) (c >>= f) Q := by
  cases c with
  | error e =>
    obtain ⟨B', he⟩ := hx
    exact ⟨B', bind_of_error he⟩
  | ok b =>
    obtain ⟨a, B', ha, hP⟩ := hx
    have hnext := hk a b B' ha hP
    show S.Decides B (x >>= k) (f b) Q
    unfold Decides at hnext ⊢
    rwa [bind_of_ok ha]

/-- A step that the check does not see. -/
theorem Decides.step {Q : β → γ → Body → Prop} {a : α} {B' : Body}
    (hx : x (S.state B) = .ok a (S.state B')) (hk : S.Decides B' (k a) c Q) :
    S.Decides B (x >>= k) c Q := by
  unfold Decides at hk ⊢
  rwa [bind_of_ok hx]

/-- Steps at the end that the check does not see. -/
theorem Decides.finish {Q : β → γ → Body → Prop} (hx : S.Decides B x c P)
    (hk : ∀ a b B', P a b B' → ∃ a' B'', k a (S.state B') = .ok a' (S.state B'') ∧ Q a' b B'') :
    S.Decides B (x >>= k) c Q := by
  cases c with
  | error e =>
    obtain ⟨B', he⟩ := hx
    exact ⟨B', bind_of_error he⟩
  | ok b =>
    obtain ⟨a, B', ha, hP⟩ := hx
    obtain ⟨a', B'', ha', hQ⟩ := hk a b B' hP
    exact ⟨a', B'', (bind_of_ok ha).trans ha', hQ⟩

/-- A result that the check passes on. -/
theorem Decides.map {b : γ → δ} {Q : α → δ → Body → Prop} (hx : S.Decides B x c P)
    (hQ : ∀ a g B', P a g B' → Q a (b g) B') : S.Decides B x (c >>= fun g => pure (b g)) Q := by
  cases c with
  | error e => exact hx
  | ok g =>
    obtain ⟨a, B', ha, hP⟩ := hx
    exact ⟨a, B', ha, hQ a g B' hP⟩

end

theorem decides_resolve (B : Body) (pos : Nat) (x : String) :
    S.Decides B (resolve pos x) (TypeFrame.resolve B.scopes.types pos x) fun l ty B' => l.ty = ty ∧
    B' = B := by
  rw [TypeFrame.resolve, Scopes.findSome?_types]
  have hs : (S.state B).scopes = B.scopes := rfl
  cases hl : B.scopes.lookup x with
  | none => exact ⟨B, by simp only [resolve, hs, hl]⟩
  | some r => exact ⟨r.2, B, by simp only [resolve, hs, hl], rfl, rfl⟩

theorem decides_coerceTo (B : Body) (pos : Nat) (t : Typed) (ty : Ty) :
    S.Decides B (coerceTo pos t ty) (t.ty.fits pos ty) fun _ _ B' => B'.scopes = B.scopes := by
  cases ty with
  | plain p =>
    obtain ⟨is, v, n, -, h⟩ := S.coerce_code B t p
    exact ⟨v, _, h, rfl⟩
  | pointer p =>
    rw [ValTy.fits, coerceTo]
    split
    · exact ⟨t.value, B, rfl, rfl⟩
    · exact ⟨B, rfl⟩

theorem read_state (B : Body) (l : Local Value) :
    ∃ t B', read l (S.state B) = .ok t (S.state B') ∧ t.ty = .ofTy l.ty ∧ B'.scopes = B.scopes := by
  obtain ⟨v, ty, heap⟩ := l
  cases ty with
  | plain p => exact ⟨_, _, (bind_of_ok (S.emit_load B p v)).trans rfl, rfl, rfl⟩
  | pointer p => exact ⟨_, B, rfl, rfl, rfl⟩

theorem runs_scopes (B : Body) : S.Runs B scopes := ⟨B.scopes, B, scopes_state S B, rfl⟩

theorem runs_release (B : Body) (vs : List Value) : S.Runs B (release vs) :=
  runs_write (release_state S vs B)

theorem runs_releaseTemporaries (B : Body) : S.Runs B releaseTemporaries := by
  -- the body with its temporaries is one without them that they were written to
  have hB : B = Body.write { B with temporaries := [] } [] B.func.registers B.temporaries [] := by
    simp [Body.write, Func.write_nil]
  rw [hB]
  exact ⟨_, _, settle_state rfl, rfl⟩

theorem runs_condition (B : Body) (t : Typed) : S.Runs B (condition t) := by
  obtain ⟨is, v, n, -, h⟩ := S.condition_code B t
  exact runs_write h

theorem runs_result (B : Body) (ret : Ty) (e : Expr) (spared : Bool) (v : Value) :
    S.Runs B (result ret e spared v) := by
  cases ret with
  | plain p => exact runs_pure v
  | pointer p =>
    rw [result]
    split
    · exact ⟨v, { B with temporaries := B.temporaries.tail }, rfl, rfl⟩
    · split
      · exact runs_pure v
      · refine (runs_write (S.emit_heapAlloc B p "result")).bind fun cell B₁ => ?_
        refine (runs_write (S.emit_load B₁ p v)).bind fun w B₂ => ?_
        exact (runs_write (S.emit_store B₂ w cell)).bind fun _ B₃ => runs_pure cell

theorem combine_state (B : Body) (op : BinOp) (l r : Typed) :
    ∃ t B', combine op l r (S.state B) = .ok t (S.state B') ∧ t.ty = op.ty l.ty r.ty ∧
    B'.scopes = B.scopes := by
  obtain ⟨is, t, n, hcode, h⟩ := S.combine_code B op l r
  exact ⟨t, _, h, hcode.ty, rfl⟩

theorem decides_declare {frame : Frame Value} {sc : Scopes Value} (hsc : B.scopes = frame :: sc)
    (pos : Nat) (x : String) (l : Local Value) :
    S.Decides B (declare pos x l) (TypeFrame.declare pos x l.ty frame.types) fun _ f B' =>
      B'.Innermost sc f := by
  have hs : (S.state B).scopes = frame :: sc := hsc
  rw [TypeFrame.declare, Frame.lookup_types, Option.isSome_map]
  split
  · rename_i hx
    exact ⟨B, by simp only [declare, hs, Scopes.declare, hx, if_true]⟩
  · rename_i hx
    exact ⟨(), B.rescope (((x, l) :: frame) :: sc),
      by simp only [declare, hs, Scopes.declare, hx]; rfl, _, rfl, rfl⟩

theorem decides_declareNames {sc : Scopes Value} (pos : Nat) (ty : Ty) (xs : List String) :
    ∀ {B : Body} {frame : Frame Value}, B.scopes = frame :: sc →
      S.Decides B (declareNames pos ty xs) (TypeFrame.declareAll pos ty xs frame.types)
        fun _ f B' => B'.Innermost sc f := by
  induction xs with
  | nil => exact fun {B frame} hsc => ⟨(), B, rfl, frame, hsc, rfl⟩
  | cons x xs ih =>
    intro B frame hsc
    rw [declareNames, TypeFrame.declareAll]
    have hdeclared : B.scopes.isDeclared x = (frame.find? x).isSome := by rw [hsc]; rfl
    refine .step (scopes_state S B) ?_
    rw [hdeclared]
    split
    · rename_i hx
      -- the name is found to be taken before room is made for it
      rw [TypeFrame.declare, Frame.lookup_types, Option.isSome_map, hx]
      exact ⟨B, rfl⟩
    · have hrest : ∀ (C : Body) (v : Value), C.scopes = B.scopes →
          S.Decides C (declare pos x ⟨v, ty, ty.isPointer⟩ >>= fun _ => declareNames pos ty xs)
            (TypeFrame.declare pos x ty frame.types >>= TypeFrame.declareAll pos ty xs)
              fun _ f B' => B'.Innermost sc f := by
        intro C v hC
        refine (decides_declare (hC.trans hsc) pos x ⟨v, ty, ty.isPointer⟩).bind fun _ f D _ hD =>
          ?_
        obtain ⟨frame', hsc', rfl⟩ := hD
        exact ih hsc'
      cases ty with
      | plain p => exact .step (S.emit_stackAlloc B p x) (hrest _ _ rfl)
      | pointer p => exact .step (S.emit_heapAlloc B p x) (hrest _ _ rfl)

theorem decides_bindParams {sc : Scopes Value} (id : FunctionId) (ps : List Param) :
    ∀ {B : Body} (frame : Frame Value) (i : Nat), B.scopes = frame :: sc →
      S.Decides B (bindParams id i ps) (TypeFrame.bindParams ps frame.types) fun _ f B' =>
        B'.Innermost sc f := by
  induction ps with
  | nil => exact fun {B} frame _ hsc => ⟨(), B, rfl, frame, hsc, rfl⟩
  | cons p ps ih =>
    obtain ⟨pos, x, ty⟩ := p
    intro B frame i hsc
    rw [bindParams, TypeFrame.bindParams]
    refine .step (S.emit_functionParam B id i) ?_
    have hrest : ∀ (C : Body) (v : Value), C.scopes = B.scopes →
        S.Decides C (declare pos x ⟨v, ty, false⟩ >>= fun _ => bindParams id (i + 1) ps)
          (TypeFrame.declare pos x ty frame.types >>= TypeFrame.bindParams ps) fun _ f B' =>
            B'.Innermost sc f := by
      intro C v hC
      refine (decides_declare (hC.trans hsc) pos x ⟨v, ty, false⟩).bind fun _ f D _ hD => ?_
      obtain ⟨frame', hsc', rfl⟩ := hD
      exact ih frame' (i + 1) hsc'
    cases ty with
    | plain p =>
      exact .step (S.emit_stackAlloc B p x) (.step (S.emit_store _ _ _) (.step rfl (hrest _ _ rfl)))
    | pointer p => exact .step rfl (hrest _ _ rfl)

end Site

variable {S : Site} {B : Body}

mutual

theorem Expr.lower_decides : ∀ (e : Expr) (B : Body),
    S.Decides B e.lower (e.check S.start.signatures B.scopes.types) fun t ty B' => t.ty = ty ∧
    B'.scopes = B.scopes
  | .int _ w, B => ⟨_, B, rfl, rfl, rfl⟩
  | .double _ x, B => ⟨_, B, rfl, rfl, rfl⟩
  | .var pos x, B => by
    rw [Expr.lower, Expr.check]
    refine (Site.decides_resolve B pos x).bind fun l ty C _ hl => ?_
    obtain ⟨rfl, rfl⟩ := hl
    exact Site.read_state C l
  | .binary _ op l r, B => by
    rw [Expr.lower, Expr.check]
    refine (l.lower_decides B).bind fun t ty C _ ht => ?_
    obtain ⟨rfl, hC⟩ := ht
    have hr := r.lower_decides C
    rw [hC] at hr
    refine hr.bind fun u uy D _ hu => ?_
    obtain ⟨rfl, hD⟩ := hu
    obtain ⟨w, E, hw, hty, hE⟩ := Site.combine_state (S := S) D op t u
    exact ⟨w, E, hw, hty, hE.trans hD⟩
  | .call pos f args, B => by
    rw [Expr.lower, Expr.check]
    have hs : (S.state B).signatures = S.start.signatures := rfl
    cases hf : S.start.signatures.find? f with
    | none => exact ⟨B, bind_of_error (by simp only [signatureOf, hs, hf])⟩
    | some signature =>
      have hsignature : signatureOf pos f (S.state B) = .ok signature (S.state B) := by
        simp only [signatureOf, hs, hf]
      refine .step hsignature ?_
      dsimp only
      split
      · exact ⟨B, rfl⟩
      · refine (Expr.lowerArgs_decides args signature.params B).bind fun vs _ C _ hC => ?_
        exact ⟨_, _, S.call_state C hf pos signature.ret vs, rfl, hC⟩

theorem Expr.lowerArgs_decides : ∀ (es : List Expr) (tys : List Ty) (B : Body),
    S.Decides B (Expr.lowerArgs es tys) (Expr.checkArgs S.start.signatures B.scopes.types es tys)
      fun _ _ B' =>
      B'.scopes = B.scopes
  | [], _, B => ⟨_, B, rfl, rfl⟩
  | _ :: _, [], B => ⟨_, B, rfl, rfl⟩
  | e :: es, ty :: tys, B => by
    rw [Expr.lowerArgs, Expr.checkArgs]
    refine (e.lower_decides B).bind fun t _ C _ ht => ?_
    obtain ⟨rfl, hC⟩ := ht
    refine (Site.decides_coerceTo C e.pos t ty).bind fun v _ D _ hD => ?_
    have hes := Expr.lowerArgs_decides es tys D
    rw [hD, hC] at hes
    exact hes.finish fun vs _ E hE => ⟨v :: vs, E, rfl, hE⟩

end

namespace Site

theorem decides_assign {frame : Frame Value} {sc : Scopes Value} (hsc : B.scopes = frame :: sc)
    (pos : Nat) (x : String) (e : Expr) :
    S.Decides B (assign pos x e) (do
      let ty ← TypeFrame.resolve (frame.types :: sc.types) pos x
      let t ← e.check S.start.signatures (frame.types :: sc.types)
      t.fits pos ty
      return frame.types) fun _ f B' => B'.Innermost sc f := by
  have htypes : frame.types :: sc.types = B.scopes.types := by rw [hsc]; rfl
  rw [htypes]
  refine (decides_resolve B pos x).bind fun l ty C _ hl => ?_
  obtain ⟨rfl, rfl⟩ := hl
  refine (e.lower_decides C).bind fun t _ D _ ht => ?_
  obtain ⟨rfl, hD⟩ := ht
  refine (decides_coerceTo D pos t l.ty).bind fun v _ E _ hE => ?_
  have hstore : ∀ (F : Body) (w : Value),
      S.Runs F (emit (.store w l.storage) >>= fun _ => releaseTemporaries) :=
    fun F w => (runs_write (S.emit_store F w l.storage)).bind fun _ G => runs_releaseTemporaries G
  have hend : ∀ F : Body, F.scopes = E.scopes → F.Innermost sc frame.types := fun F hF =>
    ⟨frame, ((hF.trans hE).trans hD).trans hsc, rfl⟩
  cases l.ty with
  | plain p =>
    obtain ⟨_, F, hF, hscF⟩ := hstore E v
    exact ⟨(), F, hF, hend F hscF⟩
  | pointer p =>
    have hcopy := (runs_write (S.emit_load E p v)).bind fun w F => hstore F w
    obtain ⟨_, F, hF, hscF⟩ := hcopy
    exact ⟨(), F, hF, hend F hscF⟩

theorem decides_giveBack {frame : Frame Value} {sc : Scopes Value} (hsc : B.scopes = frame :: sc)
    (pos : Nat) (e : Expr) :
    S.Decides B (giveBack pos e) (do
      let t ← e.check S.start.signatures (frame.types :: sc.types)
      t.fits pos S.ret
      return frame.types) fun _ f B' => B'.Innermost sc f := by
  have htypes : frame.types :: sc.types = B.scopes.types := by rw [hsc]; rfl
  rw [htypes]
  refine .step (current_state S B) (.step (scopes_state S B) ?_)
  refine (e.lower_decides B).bind fun t _ C _ ht => ?_
  obtain ⟨rfl, hC⟩ := ht
  refine (decides_coerceTo C pos t S.ret).bind fun v _ D _ hD => ?_
  have hrest : S.Runs D _ := (runs_result D S.ret e (sparedBy B.scopes e).isSome v).bind fun w E =>
    (runs_releaseTemporaries E).bind fun _ F => (runs_scopes F).bind fun sc G =>
      (runs_release G (sc.releases (sparedBy B.scopes e))).bind fun _ H =>
        runs_write (S.emit_ret H w)
  obtain ⟨_, E, hE, hscE⟩ := hrest
  exact ⟨(), E, hE, frame, ((hscE.trans hD).trans hC).trans hsc, rfl⟩

theorem decides_test (B : Body) (e : Expr) :
    S.Decides B (test e) (e.check S.start.signatures B.scopes.types) fun _ _ B' =>
      B'.scopes = B.scopes := by
  refine (e.lower_decides B).finish fun t _ C ht => ?_
  have hrest : S.Runs C _ :=
    (runs_condition C t).bind fun v D => (runs_releaseTemporaries D).bind fun _ E => runs_pure v
  obtain ⟨v, D, hD, hsc⟩ := hrest
  exact ⟨v, D, hD, hsc.trans ht.2⟩

end Site

section

variable {Γ : Signatures} {ret : Ty} {G : Func}

mutual

theorem StmtCode.isNone_eq_ends :
    ∀ {sc s n k sc' n' r}, StmtCode Γ ret G sc s n k sc' n' r → r.isNone = s.ends
  | _, _, _, _, _, _, _, .declaration .. => rfl
  | _, _, _, _, _, _, _, .assignment .. => rfl
  | _, _, _, _, _, _, _, .ret .. => rfl
  | _, _, _, _, _, _, _, .ifElse .. => rfl
  | _, _, _, _, _, _, _, .loop .. => rfl
  | _, _, _, _, _, _, _, .block h => h.isNone_eq_ends

theorem BlockCode.isNone_eq_ends :
    ∀ {sc b n k n' r}, BlockCode Γ ret G sc b n k n' r → r.isNone = b.ends
  | _, _, _, _, _, _, .closed _ h => h.isNone_eq_ends
  | _, _, _, _, _, _, .left _ h => h.isNone_eq_ends

theorem ListCode.isNone_eq_ends :
    ∀ {sc ss n k sc' n' r}, ListCode Γ ret G sc ss n k sc' n' r → r.isNone = Stmt.listEnds ss
  | _, _, _, _, _, _, _, .nil .. => rfl
  | _, _, _, _, _, _, _, .cons h hs => by
    rw [Stmt.listEnds, ← h.isNone_eq_ends, ← hs.isNone_eq_ends]
    rfl
  | _, _, _, _, _, _, _, .closed _ h => by
    rw [Stmt.listEnds, ← h.isNone_eq_ends]
    rfl

end

end

theorem Stmt.closed_of_lower {s : Stmt} {B' : Body} (hB : B.Ready)
    (h : s.lower (S.state B) = .ok () (S.state B')) :
    B.Becomes B' ∧ B'.closed = s.ends := by
  obtain ⟨C, he, hC⟩ := s.lower_code B _ hB h
  obtain rfl := Site.state_injective he
  refine ⟨hC.becomes, ?_⟩
  rw [← (hC.code _ (.refl _)).isNone_eq_ends, Body.exit]
  cases B'.closed <;> rfl

def Block.Decided (S : Site) (b : Block) : Prop :=
  ∀ B, B.Ready → S.Decides B b.lower (b.check S.start.signatures S.ret B.scopes.types) fun _ _ B' =>
    B'.scopes = B.scopes

def Stmt.Decided (S : Site) (s : Stmt) : Prop :=
  ∀ (B : Body) (frame : Frame Value) (sc : Scopes Value), B.Ready → B.scopes = frame :: sc →
    S.Decides B s.lower (s.check S.start.signatures S.ret sc.types frame.types) fun _ f B' =>
      B'.Innermost sc f

def Stmt.ListDecided (S : Site) (ss : List Stmt) : Prop :=
  ∀ (B : Body) (frame : Frame Value) (sc : Scopes Value), B.Ready → B.scopes = frame :: sc →
    S.Decides B (Stmt.lowerList ss)
      (Stmt.checkList S.start.signatures S.ret sc.types frame.types ss) fun _ _ B' =>
      ∃ frame' : Frame Value, B'.scopes = frame' :: sc

/-- A statement with branches begins with a comment and asks for the function that it is in. -/
theorem Site.Decides.after_comment {text : String} {k : Current → Lower Recorder Unit} {γ : Type}
    {c : Except LowerError γ} {P : Unit → γ → Body → Prop} (hB : B.Ready)
    (h : ∀ C : Body, C.Ready → C.scopes = B.scopes → S.Decides C (k ⟨S.id, S.ret⟩) c P) :
    S.Decides B (comment text >>= fun _ => Lower.current >>= k) c P := by
  have hopen : ∀ i ∈ [Instr.comment text], i.isTerminator = false := by simp [Instr.isTerminator]
  exact .step (S.emit_comment B text) (.step (current_state S _) (h _ (hB.write hopen _ []) rfl))

/-- A block of statements as an arm of a branch. -/
theorem Block.Decided.arm {b : Block} {C : Body} {i j : Nat} {k : Unit → Lower Recorder Unit}
    {γ : Type} {c : Except LowerError γ}
    {P : Unit → γ → Body → Prop} (hb : b.Decided S) (hC : C.temporaries = []) (hi : C.func.Awaits i)
    (hk : ∀ D : Body, D.scopes = C.scopes → (C.moveTo i).Becomes D → S.Decides D (k ()) c P) :
    S.Decides C (emit (.positionAtEnd ⟨S.id, ⟨i⟩⟩) >>= fun _ => b.lower >>= fun _ =>
      branchUnlessTerminated ⟨S.id, ⟨j⟩⟩ >>=
        k) (b.check S.start.signatures S.ret C.scopes.types >>= fun _ => c) P := by
  refine .step (S.emit_positionAtEnd C i) ?_
  have hready := Body.ready_moveTo hC hi
  refine (hb _ hready).bind fun _ _ D hrun hD => ?_
  obtain ⟨D', he, -, hlow⟩ := b.lower_code _ _ hready hrun
  obtain rfl := Site.state_injective he
  exact .step (branchUnlessTerminated_state S D j) (hk _ (by simpa using hD) (hlow.becomes.join j))

theorem Site.Decides.fork {first second third : String}
    {k : BlockRef → BlockRef → BlockRef → Lower Recorder Unit} {γ : Type} {c : Except LowerError γ}
    {P : Unit → γ → Body → Prop} (h : S.Decides (B.fork first second third)
      (k ⟨S.id, ⟨B.func.blocks.length⟩⟩ ⟨S.id, ⟨B.func.blocks.length + 1⟩⟩
      ⟨S.id, ⟨B.func.blocks.length + 2⟩⟩) c P) :
    S.Decides B
      (emit (.appendBlock S.id first) >>= fun a => emit (.appendBlock S.id second) >>= fun b =>
      emit (.appendBlock S.id third) >>= fun c => k a b c) c P := by
  unfold Site.Decides at h ⊢
  rwa [fork_state]

theorem Stmt.decided_ifElse {pos : Nat} {c : Expr} {yes no : Block} (hyes : yes.Decided S)
    (hno : no.Decided S) :
    (Stmt.ifElse pos c yes no).Decided S := by
  intro B₀ frame sc hB₀ hsc₀
  rw [Stmt.lower, Stmt.check]
  refine .after_comment hB₀ fun B hB hscB => ?_
  have hsc := hscB.trans hsc₀
  have htypes : frame.types :: sc.types = B.scopes.types := by rw [hsc]; rfl
  rw [htypes]
  refine (Site.decides_test B c).bind fun v _ B₁ hrun hB₁ => ?_
  obtain ⟨is, n, ds, -, he, -⟩ := test_code hB.settled hrun
  obtain rfl := Site.state_injective he
  have h₁ := (Body.Becomes.refl hB.block hB.settled).write is n ds
  refine .fork (.step (S.emit_condBranch _ v _ _) ?_)
  generalize hC : ((B.write is n [] ds).fork "then" "else" "ifcont").write [_] _ [] [] = C
  obtain ⟨h₂, hwait, -⟩ := Body.forked _ _ _ h₁.block h₁.settled hC
  have hscC : C.scopes = B.scopes := by rw [← hC]; rfl
  rw [← hscC]
  refine hyes.arm h₂.settled (hwait 0 (by omega)) fun D hD hCD => ?_
  have hwaitD := fun j hj hj' => (hwait j hj').grows hCD.grows (by simp; omega : _ + j ≠ _)
  rw [← hD]
  refine hno.arm hCD.settled (hwaitD 1 (by omega) (by omega)) fun E hE hDE => ?_
  exact ⟨(), _, S.emit_positionAtEnd E _, frame, ((hE.trans hD).trans hscC).trans hsc, rfl⟩

theorem Stmt.decided_loop {pos : Nat} {c : Expr} {body : Block} (hbody : body.Decided S) :
    (Stmt.loop pos c body).Decided S := by
  intro B₀ frame sc hB₀ hsc₀
  rw [Stmt.lower, Stmt.check]
  refine .after_comment hB₀ fun B hB hscB => ?_
  have hsc := hscB.trans hsc₀
  have htypes : frame.types :: sc.types = B.scopes.types := by rw [hsc]; rfl
  rw [htypes]
  refine .fork (.step (branchUnlessTerminated_state S _ _) ?_)
  rw [Body.join, Body.closed_fork _ _ _ hB.block, hB.reached, if_neg Bool.false_ne_true]
  generalize hC : (B.fork "while" "loop" "cont").write [_] _ [] [] = C
  obtain ⟨h₁, hwait, -⟩ := Body.forked _ _ _ hB.block hB.settled hC
  have hscC : C.scopes = B.scopes := by rw [← hC]; rfl
  refine .step (S.emit_positionAtEnd C B.func.blocks.length) ?_
  have hready := Body.ready_moveTo h₁.settled (hwait 0 (by omega))
  rw [← hscC, ← Body.moveTo_scopes C B.func.blocks.length]
  refine (Site.decides_test _ c).bind fun v _ D hrun hD => ?_
  obtain ⟨is, n, ds, -, he, -⟩ := test_code hready.settled hrun
  obtain rfl := Site.state_injective he
  refine .step (S.emit_condBranch _ v _ _) ?_
  rw [Body.write_write]
  generalize hE : (C.moveTo B.func.blocks.length).write (is ++ [_]) _ _ _ = E
  have hCE : (C.moveTo B.func.blocks.length).Becomes E :=
    hE ▸ (Body.Becomes.refl hready.block hready.settled).write _ _ _
  have hscE : E.scopes = (C.moveTo B.func.blocks.length).scopes := by rw [← hE]; rfl
  rw [← hscE]
  refine hbody.arm hCE.settled ((hwait 1 (by omega)).grows hCE.grows (by simp)) fun F hF _ => ?_
  exact ⟨(), _, S.emit_positionAtEnd F _, frame, ((hF.trans hscE).trans hscC).trans hsc, rfl⟩

theorem Block.decided_mk {pos : Nat} {ss : List Stmt} (hss : Stmt.ListDecided S ss) :
    (Block.mk pos ss).Decided S := by
  intro B hB
  rw [Block.lower, Block.check]
  refine .step (pushScope_state S B) ?_
  refine (hss _ [] B.scopes (hB.rescope _) rfl).finish fun _ _ C hC => ?_
  obtain ⟨frame, hframe⟩ := hC
  refine ⟨(), _, leaveScope_state S hframe, ?_⟩
  split <;> rfl

theorem Stmt.listDecided_cons {s : Stmt} {ss : List Stmt} (hs : s.Decided S)
    (hss : Stmt.ListDecided S ss) :
    Stmt.ListDecided S (s :: ss) := by
  intro B frame sc hB hsc
  rw [Stmt.lowerList, Stmt.checkList]
  refine .step (S.emit_isTerminated B) ?_
  rw [hB.reached, if_neg Bool.false_ne_true]
  refine (hs B frame sc hB hsc).bind fun _ f C hrun hC => ?_
  obtain ⟨frame', hsc', rfl⟩ := hC
  obtain ⟨hbecomes, hclosed⟩ := Stmt.closed_of_lower hB hrun
  cases hends : s.ends with
  | false =>
    rw [if_neg Bool.false_ne_true]
    exact hss C frame' sc ⟨hbecomes.block, hbecomes.settled, hclosed.trans hends⟩ hsc'
  | true =>
    -- neither looks at the rest: lowering at most counts it in a comment
    rw [if_pos rfl]
    cases ss with
    | nil => exact ⟨(), C, rfl, frame', hsc'⟩
    | cons s₂ ss =>
      rw [Stmt.lowerList]
      refine .step (S.emit_isTerminated C) ?_
      rw [hclosed, hends, if_pos rfl]
      exact ⟨(), _, S.emit_comment C _, frame', hsc'⟩

mutual

theorem Stmt.lower_decided : ∀ s : Stmt, s.Decided S
  | .declaration pos ty xs => by
    intro B frame sc _ hsc
    rw [Stmt.lower, Stmt.check]
    exact .step (S.emit_comment B _) (Site.decides_declareNames pos ty xs hsc)
  | .assignment pos x e => by
    intro B frame sc _ hsc
    rw [Stmt.lower, Stmt.check]
    exact .step (S.emit_comment B _) (Site.decides_assign (B := B.write _ _ _ _) hsc pos x e)
  | .ret pos e => by
    intro B frame sc _ hsc
    rw [Stmt.lower, Stmt.check]
    exact .step (S.emit_comment B _) (Site.decides_giveBack (B := B.write _ _ _ _) hsc pos e)
  | .ifElse pos c yes no => Stmt.decided_ifElse yes.lower_decided no.lower_decided
  | .loop pos c body => Stmt.decided_loop body.lower_decided
  | .block b => by
    intro B frame sc hB hsc
    rw [Stmt.lower, Stmt.check]
    have h := b.lower_decided B hB
    rw [hsc] at h
    exact h.map fun _ _ B' hB' => ⟨frame, hB', rfl⟩

theorem Block.lower_decided : ∀ b : Block, b.Decided S
  | .mk _ ss => Block.decided_mk (Stmt.lowerList_decided ss)

theorem Stmt.lowerList_decided : ∀ ss : List Stmt, Stmt.ListDecided S ss
  | [] => fun B frame _ _ hsc => ⟨(), B, rfl, frame, hsc⟩
  | s :: ss => Stmt.listDecided_cons s.lower_decided (Stmt.lowerList_decided ss)

end

theorem Definition.lowerBody_decided (d : Definition) {F : Func}
    (hF : S.start.target.function? S.id = some F) (hsc : S.start.scopes = [])
    (hts : S.start.temporaries = []) (hret : S.ret = d.prototype.ret) :
    match d.check S.start.signatures with
    | .ok () => ∃ B, d.lowerBody S.id S.start = .ok () (S.state B)
    | .error e => ∃ B, d.lowerBody S.id S.start = .error e (S.state B) := by
  rw [Definition.lowerBody, begin_state hF hsc hts, Definition.check]
  have hready := Body.ready_entry F
  have hdecides : S.Decides (Body.entry F)
      (comment ("function " ++ d.prototype.print) >>= fun _ => pushScope >>= fun _ =>
      bindParams S.id 0 d.prototype.params >>= fun _ =>
        Stmt.lowerList d.body.statements >>= fun _ =>
        fallOff d.prototype.ret)
      (TypeFrame.bindParams d.prototype.params [] >>= fun f =>
        Stmt.checkList S.start.signatures d.prototype.ret [] f d.body.statements) fun _ _ _ =>
          True := by
    refine .step (S.emit_comment _ _) (.step (pushScope_state S _) ?_)
    refine (Site.decides_bindParams S.id d.prototype.params [] 0 rfl).bind fun _ f B hrun hB => ?_
    obtain ⟨frame, hframe, rfl⟩ := hB
    obtain ⟨is, n, sc, hcode, he⟩ := bindParams_code hrun
    obtain rfl := Site.state_injective he
    rw [← hret]
    refine (Stmt.lowerList_decided _ _ frame [] ?_ hframe).finish fun _ _ C hC => ?_
    · have hopen :
          ∀ i ∈ [.comment ("function " ++ d.prototype.print)] ++ is, i.isTerminator = false :=
        List.forall_mem_cons.2 ⟨rfl, fun i hi => (hcode.open i hi).1⟩
      simpa using (hready.write hopen n []).rescope sc
    · obtain ⟨last, hlast⟩ := hC
      exact ⟨(), _, fallOff_state S hlast, trivial⟩
  revert hdecides
  unfold Site.Decides
  cases TypeFrame.bindParams d.prototype.params [] >>= fun f =>
    Stmt.checkList S.start.signatures d.prototype.ret [] f d.body.statements with
  | error e => exact id
  | ok u =>
    rintro ⟨_, B, hB, -⟩
    exact ⟨B, hB⟩

/-- A definition of a function that has no body yet, with a signature that is new or known, is
lowered just where the checker accepts it; otherwise lowering fails with the first violation that
the checker finds. -/
theorem Definition.lower_iff_check (d : Definition) (s : Lowering Recorder) {Γ : Signatures}
    (hnew : s.signatures.isDefined d.prototype.name = false)
    (hreg : s.signatures.register d.prototype.name d.prototype.signature = .ok Γ) :
    ((∃ f s', d.lower s = .ok f s') ↔ d.check Γ = .ok ()) ∧
      ∀ e, (∃ s', d.lower s = .error e s') ↔ d.check Γ = .error e := by
  obtain ⟨S, F, B, hbegun, -, hend⟩ := d.lower_begun hnew hreg
  obtain rfl : Γ = S.start.signatures := Except.ok.inj (hreg.symm.trans hbegun.registered)
  have hbody := d.lowerBody_decided hbegun.func hbegun.scopes hbegun.temporaries hbegun.ret
  rcases hend with ⟨hrun, hlower⟩ | ⟨e, hrun, hlower⟩
  · cases hc : d.check S.start.signatures with
    | ok u => simp [hlower]
    | error e =>
      rw [hc] at hbody
      obtain ⟨B', hB'⟩ := hbody
      cases hrun.symm.trans hB'
  · cases hc : d.check S.start.signatures with
    | ok u =>
      rw [hc] at hbody
      obtain ⟨B', hB'⟩ := hbody
      cases hrun.symm.trans hB'
    | error e' =>
      rw [hc] at hbody
      obtain ⟨B', hB'⟩ := hbody
      obtain ⟨rfl, -⟩ := EStateM.Result.error.inj (hrun.symm.trans hB')
      simp [hlower]

/-- Behind a branch whose arms both return, statements are lowered and checked; behind the return of
a nested block they are not. -/
theorem Definition.lower_iff_check_afterBranch :
    let pointer := Ty.pointer .int
    let s := (Lowering.items [.external ⟨0, "g", [⟨0, "p", pointer⟩], pointer⟩]
      (.ofTarget Recorder.empty)).2
    let out := Stmt.ret 1 (.var 2 "q")
    let skipped := Stmt.assignment 3 "unknown" (.var 4 "q")
    let d : Definition := ⟨5, ⟨5, "f", [⟨6, "q", pointer⟩], pointer⟩, .mk 7 [
      .ifElse 8 (.var 9 "q") (.mk 10 [.block (.mk 11 [out]), skipped]) (.mk 12 [out]),
      .ret 13 (.call 14 "g" [.binary 15 .less (.var 15 "q") (.int 16 0)])]⟩
    s.signatures.isDefined "f" = false ∧
      (∃ Γ, s.signatures.register "f" d.prototype.signature = .ok Γ) ∧
      ∃ s', d.lower s = .error ⟨.incompatiblePointer .bool pointer, 15⟩ s' := by
  intro pointer s out skipped d
  have hnew : s.signatures.isDefined "f" = false := by decide +kernel
  have hreg : ∃ Γ, s.signatures.register "f" d.prototype.signature = .ok Γ ∧
    d.check Γ = .error ⟨.incompatiblePointer .bool pointer, 15⟩ := ⟨_, rfl, rfl⟩
  obtain ⟨Γ, hΓ, hcheck⟩ := hreg
  exact ⟨hnew, ⟨Γ, hΓ⟩, ((Definition.lower_iff_check d s hnew hΓ).2 _).2 hcheck⟩

end ImpFront

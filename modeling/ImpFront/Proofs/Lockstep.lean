import Mathlib
import ImpFront.Proofs.Parametric
import ImpFront.Proofs.Places

/-! Two runs of lowering side by side. The second lowers the same tree at other places, from another
state and perhaps into another kind of target. If the elementary steps keep a relation between the
two states, then whole bodies do: both runs give related results, or both fail for the same
reason. -/

namespace ImpFront

open Lower

mutual

def Expr.callees : Expr → List String
  | .int .. | .double .. | .var .. => []
  | .binary _ _ left right => left.callees ++ right.callees
  | .call _ callee args => callee :: Expr.calleesList args

def Expr.calleesList : List Expr → List String
  | [] => []
  | e :: es => e.callees ++ Expr.calleesList es

end

mutual

def Stmt.callees : Stmt → List String
  | .declaration .. => []
  | .assignment _ _ value => value.callees
  | .ret _ value => value.callees
  | .ifElse _ cond yes no => cond.callees ++ yes.callees ++ no.callees
  | .loop _ cond body => cond.callees ++ body.callees
  | .block body => body.callees

def Block.callees : Block → List String
  | .mk _ statements => Stmt.calleesList statements

def Stmt.calleesList : List Stmt → List String
  | [] => []
  | s :: ss => s.callees ++ Stmt.calleesList ss

end

/-- The functions that a definition calls. -/
def Definition.callees (d : Definition) : List String := d.body.callees

def LowerError.mapPos (f : Nat → Nat) (e : LowerError) : LowerError := { e with pos := f e.pos }

/-- The same error at a moved place; an internal error may be without one. -/
def LowerError.Moved (f : Nat → Nat) (e e' : LowerError) : Prop :=
  e' = e.mapPos f ∨ (e' = e ∧ ∃ cause, e.fault = .internal cause)

theorem LowerError.Moved.eq {e e' : LowerError} (h : e.Moved id e') : e' = e := by
  rcases h with h | ⟨h, -⟩
  · exact h
  · exact h

namespace Lower

variable {σ τ α β γ δ : Type} {R : Lowering σ → Lowering τ → Prop} {f : Nat → Nat}

/-- From related states the two computations end in related states, either with results that `P`
relates, or with one error, in the second run at its moved place. -/
def Paired (R : Lowering σ → Lowering τ → Prop) (f : Nat → Nat) (x : Lower σ α) (y : Lower τ β)
    (P : α → β → Prop) : Prop :=
  ∀ s s', R s s' → ∃ t t', R t t' ∧
    ((∃ a b, x s = .ok a t ∧ y s' = .ok b t' ∧ P a b) ∨ ∃ e e',
      x s = .error e t ∧ y s' = .error e' t' ∧ e.Moved f e')

theorem Paired.bind {x : Lower σ α} {y : Lower τ β} {k : α → Lower σ γ} {l : β → Lower τ δ}
    {P : α → β → Prop} {Q : γ → δ → Prop} (hx : Paired R f x y P)
    (hk : ∀ a b, P a b → Paired R f (k a) (l b) Q) :
    Paired R f (x >>= k) (y >>= l) Q := by
  intro s s' hs
  obtain ⟨t, t', ht, ⟨a, b, hxa, hyb, hP⟩ | ⟨e, e', hxe, hye, he⟩⟩ := hx s s' hs
  · rw [bind_of_ok hxa, bind_of_ok hyb]
    exact hk a b hP t t' ht
  · exact ⟨t, t', ht, .inr ⟨e, e', bind_of_error hxe, bind_of_error hye, he⟩⟩

/-- The bind rule for equal results. -/
theorem Paired.next {x : Lower σ α} {y : Lower τ α} {k : α → Lower σ γ} {l : α → Lower τ δ}
    {Q : γ → δ → Prop} (hx : Paired R f x y Eq) (hk : ∀ a, Paired R f (k a) (l a) Q) :
    Paired R f (x >>= k) (y >>= l) Q :=
  hx.bind fun a _ h => h ▸ hk a

theorem paired_pure {P : α → β → Prop} {a : α} {b : β} (h : P a b) :
    Paired R f (pure a) (pure b) P :=
  fun s s' hs => ⟨s, s', hs, .inl ⟨a, b, rfl, rfl, h⟩⟩

theorem paired_return (a : α) : Paired R f (pure a) (pure a) Eq := paired_pure rfl

theorem paired_fail {P : α → β → Prop} (pos : Nat) (fault : Fault) :
    Paired R f (fail pos fault) (fail (f pos) fault) P :=
  fun s s' hs => ⟨s, s', hs, .inr ⟨_, _, rfl, rfl, .inl rfl⟩⟩

end Lower

/-- A relation between two states that the elementary steps of lowering keep. Blocks that are handed
out correspond to each other, and both states give the same signatures to the functions that are
called. -/
structure Lockstep (σ τ : Type) [Emitter σ] [Emitter τ] where
  Rel : Lowering σ → Lowering τ → Prop
  place : Nat → Nat
  Block : BlockRef → BlockRef → Prop
  callees : List String
  signatures : Signatures
  scopes : ∀ {s s'}, Rel s s' → s'.scopes = s.scopes
  temporaries : ∀ {s s'}, Rel s s' → s'.temporaries = s.temporaries
  rescope : ∀ {s s'} sc, Rel s s' → Rel { s with scopes := sc } { s' with scopes := sc }
  retain : ∀ {s s'} ts, Rel s s' → Rel { s with temporaries := ts } { s' with temporaries := ts }
  known : ∀ {s s' g}, Rel s s' → g ∈ callees → s.signatures.find? g = signatures.find? g ∧
    s'.signatures.find? g = signatures.find? g
  code : ∀ {α : Type} {op : Op α}, op.isCode = true → Paired Rel place (emit op) (emit op) Eq
  current : Paired Rel place Lower.current Lower.current fun c c' => c'.ret = c.ret ∧
    ∀ hint, Paired Rel place (emit (.appendBlock c.function hint))
      (emit (.appendBlock c'.function hint)) Block
  branch : ∀ {b b'}, Block b b' → Paired Rel place (emit (.branch b)) (emit (.branch b')) Eq
  condBranch : ∀ {v a a' b b'}, Block a a' → Block b b' →
    Paired Rel place (emit (.condBranch v a b)) (emit (.condBranch v a' b')) Eq
  positionAtEnd :
    ∀ {b b'}, Block b b' → Paired Rel place (emit (.positionAtEnd b)) (emit (.positionAtEnd b')) Eq
  call : ∀ {pos g signature args}, g ∈ callees → signatures.find? g = some signature →
    Paired Rel place (call pos g signature.ret args) (call (place pos) g signature.ret args) Eq

namespace Lockstep

variable {σ τ : Type} [Emitter σ] [Emitter τ] (L : Lockstep σ τ)

/-- The two computations end alike. -/
def Steps {α : Type} (x : Lower σ α) (y : Lower τ α) : Prop := Paired L.Rel L.place x y Eq

variable {L}

theorem scopes_steps : L.Steps Lower.scopes Lower.scopes :=
  fun s s' hs => ⟨s, s', hs, .inl ⟨_, _, rfl, rfl, (L.scopes hs).symm⟩⟩

theorem pushScope_steps : L.Steps pushScope pushScope := by
  intro s s' hs
  refine ⟨_, _, L.rescope ([] :: s.scopes) hs, .inl ⟨_, _, rfl, ?_, rfl⟩⟩
  simp only [pushScope, L.scopes hs]

theorem popScope_steps : L.Steps popScope popScope := by
  intro s s' hs
  simp only [popScope, L.scopes hs]
  cases s.scopes with
  | nil => exact ⟨s, s', hs, .inr ⟨_, _, rfl, rfl, .inr ⟨rfl, _, rfl⟩⟩⟩
  | cons frame sc => exact ⟨_, _, L.rescope sc hs, .inl ⟨_, _, rfl, rfl, rfl⟩⟩

theorem declare_steps (pos : Nat) (x : String) (l : Local Value) :
    L.Steps (Lower.declare pos x l) (Lower.declare (L.place pos) x l) := by
  intro s s' hs
  simp only [Lower.declare, L.scopes hs]
  cases s.scopes.declare x l with
  | error fault => exact ⟨s, s', hs, .inr ⟨_, _, rfl, rfl, .inl rfl⟩⟩
  | ok sc => exact ⟨_, _, L.rescope sc hs, .inl ⟨(), (), rfl, rfl, trivial⟩⟩

theorem resolve_steps (pos : Nat) (x : String) :
    L.Steps (resolve pos x) (resolve (L.place pos) x) := by
  intro s s' hs
  simp only [resolve, L.scopes hs]
  cases s.scopes.lookup x with
  | none => exact ⟨s, s', hs, .inr ⟨_, _, rfl, rfl, .inl rfl⟩⟩
  | some r => exact ⟨s, s', hs, .inl ⟨_, _, rfl, rfl, rfl⟩⟩

theorem signatureOf_steps (pos : Nat) {g : String} (hg : g ∈ L.callees) :
    Paired L.Rel L.place (signatureOf pos g) (signatureOf (L.place pos) g) fun a b =>
      a = b ∧ L.signatures.find? g = some a := by
  intro s s' hs
  obtain ⟨hknown, hknown'⟩ := L.known hs hg
  simp only [signatureOf, hknown, hknown']
  cases L.signatures.find? g with
  | none => exact ⟨s, s', hs, .inr ⟨_, _, rfl, rfl, .inl rfl⟩⟩
  | some signature => exact ⟨s, s', hs, .inl ⟨_, _, rfl, rfl, rfl, rfl⟩⟩

theorem dropTemporary_steps : L.Steps dropTemporary dropTemporary := by
  intro s s' hs
  refine ⟨_, _, L.retain s.temporaries.tail hs, .inl ⟨_, _, rfl, ?_, rfl⟩⟩
  simp only [dropTemporary, L.temporaries hs]

theorem takeTemporaries_steps : L.Steps takeTemporaries takeTemporaries :=
  fun _ _ hs => ⟨_, _, L.retain [] hs, .inl ⟨_, _, rfl, rfl, (L.temporaries hs).symm⟩⟩

theorem comment_steps (text : String) : L.Steps (comment text) (comment text) := L.code rfl

theorem release_steps (vs : List Value) : L.Steps (release vs) (release vs) := by
  induction vs with
  | nil => exact paired_return ()
  | cons v vs ih => exact (L.code rfl).next fun _ => ih

theorem releaseTemporaries_steps : L.Steps releaseTemporaries releaseTemporaries := by
  apply takeTemporaries_steps.next
  intro cells
  split
  · exact release_steps cells
  · exact (comment_steps _).next fun _ => release_steps cells

theorem deref_steps (t : Typed) : L.Steps (deref t) (deref t) := by
  unfold deref
  split
  · exact (L.code rfl).next fun _ => paired_return _
  · exact paired_return t

theorem toPrim_steps (t : Typed) : L.Steps (toPrim t) (toPrim t) := by
  apply (deref_steps t).next
  intro u
  split
  · exact (L.code rfl).next fun _ => paired_return _
  · exact paired_return _
  · exact paired_return _

theorem coerce_steps (t : Typed) (p : Prim) : L.Steps (coerce t p) (coerce t p) := by
  apply (toPrim_steps t).next
  intro v
  dsimp only
  split
  · exact L.code rfl
  · exact L.code rfl
  · exact paired_return _

theorem coerceTo_steps (pos : Nat) (t : Typed) (ty : Ty) :
    L.Steps (coerceTo pos t ty) (coerceTo (L.place pos) t ty) := by
  unfold coerceTo
  split
  · exact coerce_steps t _
  · split
    · exact paired_return _
    · exact paired_fail pos _

theorem zero_steps (p : Prim) : L.Steps (zero p) (zero p) := by
  cases p <;> exact L.code rfl

theorem condition_steps (t : Typed) : L.Steps (condition t) (condition t) := by
  apply (deref_steps t).next
  intro u
  split
  · exact paired_return _
  · refine (toPrim_steps u).next fun v => (zero_steps v.2).next fun z => ?_
    exact L.code rfl

theorem copyToHeap_steps (p : Prim) (ptr : Value) :
    L.Steps (copyToHeap p ptr) (copyToHeap p ptr) := by
  refine Paired.next (L.code rfl) fun cell => Paired.next (L.code rfl) fun value => ?_
  exact Paired.next (L.code rfl) fun _ => paired_return cell

theorem combine_steps (op : BinOp) (l r : Typed) : L.Steps (combine op l r) (combine op l r) := by
  refine (toPrim_steps l).next fun v => (toPrim_steps r).next fun w => ?_
  refine (coerce_steps _ _).next fun v' => (coerce_steps _ _).next fun w' => ?_
  cases op <;> exact Paired.next (L.code rfl) fun _ => paired_return _

theorem read_steps (l : Local Value) : L.Steps (Lower.read l) (Lower.read l) := by
  unfold Lower.read
  split
  · exact paired_return _
  · exact Paired.next (L.code rfl) fun _ => paired_return _

theorem declareNames_steps (pos : Nat) (ty : Ty) (xs : List String) :
    L.Steps (declareNames pos ty xs) (declareNames (L.place pos) ty xs) := by
  induction xs with
  | nil => exact paired_return ()
  | cons x xs ih =>
    apply scopes_steps.next
    intro sc
    split
    · exact paired_fail pos _
    · cases ty with
      | plain p => exact Paired.next (L.code rfl) fun _ => (declare_steps pos x _).next fun _ => ih
      | pointer p =>
        exact Paired.next (L.code rfl) fun _ => (declare_steps pos x _).next fun _ => ih

theorem bindParams_steps {g g' : FunctionId} (ps : List Param)
    (h : ∀ i, L.Steps (emit (.functionParam g i)) (emit (.functionParam g' i))) :
    ∀ i, L.Steps (bindParams g i ps) (bindParams g' i (ps.map (Param.mapPos L.place))) := by
  induction ps with
  | nil => exact fun _ => paired_return ()
  | cons p ps ih =>
    intro i
    obtain ⟨pos, x, ty⟩ := p
    apply (h i).next
    intro v
    cases ty with
    | plain q =>
      refine Paired.next (L.code rfl) fun slot => Paired.next (L.code rfl) fun _ => ?_
      exact (declare_steps pos x _).next fun _ => ih _
    | pointer q => exact (declare_steps pos x _).next fun _ => ih _

end Lockstep

variable {σ τ : Type} [Emitter σ] [Emitter τ] {L : Lockstep σ τ}

open Lockstep

mutual

theorem Expr.lower_steps :
    ∀ e : Expr, e.callees ⊆ L.callees → L.Steps e.lower (e.mapPos L.place).lower
  | .int _ _, _ => Paired.next (L.code rfl) fun _ => paired_return _
  | .double _ _, _ => Paired.next (L.code rfl) fun _ => paired_return _
  | .var pos x, _ => (resolve_steps pos x).next fun l => read_steps l
  | .binary _ op l r, h => by
    have hl : l.callees ⊆ L.callees := fun g hg => h (List.mem_append_left _ hg)
    have hr : r.callees ⊆ L.callees := fun g hg => h (List.mem_append_right _ hg)
    exact (l.lower_steps hl).next fun t => (r.lower_steps hr).next fun u => combine_steps op t u
  | .call pos g args, h => by
    have hg : g ∈ L.callees := h List.mem_cons_self
    apply (signatureOf_steps pos hg).bind
    rintro signature _ ⟨rfl, hfind⟩
    rw [Expr.length_mapPosList]
    split
    · exact paired_fail pos _
    · have hargs :=
        Expr.lowerArgs_steps args signature.params fun g hg => h (List.mem_cons_of_mem _ hg)
      exact hargs.next fun vs => L.call hg hfind

theorem Expr.lowerArgs_steps : ∀ (es : List Expr) (tys : List Ty), Expr.calleesList es ⊆ L.callees →
    L.Steps (Expr.lowerArgs es tys) (Expr.lowerArgs (Expr.mapPosList L.place es) tys)
  | [], _, _ => paired_return _
  | _ :: _, [], _ => paired_return _
  | e :: es, ty :: tys, h => by
    have he : e.callees ⊆ L.callees := fun g hg => h (List.mem_append_left _ hg)
    have hes : Expr.calleesList es ⊆ L.callees := fun g hg => h (List.mem_append_right _ hg)
    refine (e.lower_steps he).next fun t => ?_
    rw [Expr.pos_mapPos]
    refine (coerceTo_steps e.pos t ty).next fun v => ?_
    exact (Expr.lowerArgs_steps es tys hes).next fun vs => paired_return _

end

namespace Lockstep

theorem assign_steps (pos : Nat) (x : String) {e : Expr} (he : e.callees ⊆ L.callees) :
    L.Steps (assign pos x e) (assign (L.place pos) x (e.mapPos L.place)) := by
  refine (resolve_steps pos x).next fun l => (e.lower_steps he).next fun t => ?_
  refine (coerceTo_steps pos t l.ty).next fun v => ?_
  have hstore : ∀ w, L.Steps (emit (.store w l.storage) >>= fun _ => releaseTemporaries)
      (emit (.store w l.storage) >>= fun _ => releaseTemporaries) :=
    fun w => Paired.next (L.code rfl) fun _ => releaseTemporaries_steps
  obtain ⟨storage, ty, heap⟩ := l
  cases ty with
  | plain p => exact hstore v
  | pointer p => exact Paired.next (L.code rfl) hstore

theorem result_steps (ret : Ty) (e : Expr) (spared : Bool) (v : Value) :
    L.Steps (result ret e spared v) (result ret (e.mapPos L.place) spared v) := by
  cases ret with
  | plain p => exact paired_return v
  | pointer p =>
    simp only [result, Expr.isCall_mapPos]
    split
    · exact dropTemporary_steps.next fun _ => paired_return v
    · split
      · exact paired_return v
      · exact copyToHeap_steps p v

theorem giveBack_steps (pos : Nat) {e : Expr} (he : e.callees ⊆ L.callees) :
    L.Steps (giveBack pos e) (giveBack (L.place pos) (e.mapPos L.place)) := by
  apply L.current.bind
  rintro ⟨g, ret⟩ ⟨g', ret'⟩ ⟨hret, -⟩
  cases hret
  refine scopes_steps.next fun sc => (e.lower_steps he).next fun t => ?_
  simp only [sparedBy, Expr.var?_mapPos]
  refine (coerceTo_steps pos t ret).next fun v => (result_steps ret e _ v).next fun w => ?_
  refine releaseTemporaries_steps.next fun _ => scopes_steps.next fun sc' =>
    (release_steps _).next fun _ => ?_
  exact L.code rfl

theorem test_steps {e : Expr} (he : e.callees ⊆ L.callees) :
    L.Steps (test e) (test (e.mapPos L.place)) := by
  refine (e.lower_steps he).next fun t => (condition_steps t).next fun v => ?_
  exact releaseTemporaries_steps.next fun _ => paired_return v

theorem branchUnlessTerminated_steps {b b' : BlockRef} (hb : L.Block b b') :
    L.Steps (branchUnlessTerminated b) (branchUnlessTerminated b') := by
  apply Paired.next (L.code rfl)
  intro closed
  cases closed with
  | true => exact paired_return ()
  | false => exact L.branch hb

theorem leaveScope_steps : L.Steps leaveScope leaveScope := by
  refine popScope_steps.next fun frame => Paired.next (L.code rfl) fun closed => ?_
  cases closed with
  | true => exact paired_return ()
  | false =>
    rw [if_neg Bool.false_ne_true]
    dsimp only
    split
    · exact release_steps _
    · exact (comment_steps _).next fun _ => release_steps _

/-- The three blocks that a statement adds. -/
theorem fork_steps {g g' : FunctionId} {first second third : String}
    {k k' : BlockRef → BlockRef → BlockRef → Lower _ Unit} (hg : ∀ hint, Paired L.Rel L.place
      (emit (.appendBlock g hint)) (emit (.appendBlock g' hint)) L.Block) (h : ∀ a a' b b' c c',
      L.Block a a' → L.Block b b' → L.Block c c' → L.Steps (k a b c) (k' a' b' c')) :
    L.Steps
      (emit (.appendBlock g first) >>= fun a => emit (.appendBlock g second) >>= fun b =>
        emit (.appendBlock g third) >>= fun c => k a b c)
      (emit (.appendBlock g' first) >>= fun a => emit (.appendBlock g' second) >>= fun b =>
        emit (.appendBlock g' third) >>= fun c => k' a b c) :=
  (hg first).bind fun a a' ha => (hg second).bind fun b b' hb => (hg third).bind fun c c' hc =>
    h a a' b b' c c' ha hb hc

end Lockstep

mutual

theorem Stmt.lower_steps :
    ∀ s : Stmt, s.callees ⊆ L.callees → L.Steps s.lower (s.mapPos L.place).lower
  | .declaration pos ty xs, _ => (comment_steps _).next fun _ => declareNames_steps pos ty xs
  | .assignment pos x e, h => by
    simp only [Stmt.lower, Stmt.mapPos, Stmt.printAt, Expr.print_mapPos]
    exact (comment_steps _).next fun _ => assign_steps pos x h
  | .ret pos e, h => by
    simp only [Stmt.lower, Stmt.mapPos, Stmt.printAt, Expr.print_mapPos]
    exact (comment_steps _).next fun _ => giveBack_steps pos h
  | .ifElse _ c yes no, h => by
    have hc : c.callees ⊆ L.callees := fun g hg => h (by simp [Stmt.callees, hg])
    have hyes : yes.callees ⊆ L.callees := fun g hg => h (by simp [Stmt.callees, hg])
    have hno : no.callees ⊆ L.callees := fun g hg => h (by simp [Stmt.callees, hg])
    simp only [Stmt.lower, Stmt.mapPos, Expr.print_mapPos]
    refine (comment_steps _).next fun _ => L.current.bind fun cur cur' hcur =>
      (test_steps hc).next fun v => ?_
    refine fork_steps hcur.2 fun a a' b b' d d' ha hb hd => ?_
    refine (L.condBranch ha hb).next fun _ => (L.positionAtEnd ha).next fun _ =>
      (yes.lower_steps hyes).next fun _ => ?_
    refine (branchUnlessTerminated_steps hd).next fun _ => (L.positionAtEnd hb).next fun _ => ?_
    refine (no.lower_steps hno).next fun _ => (branchUnlessTerminated_steps hd).next fun _ => ?_
    exact L.positionAtEnd hd
  | .loop _ c body, h => by
    have hc : c.callees ⊆ L.callees := fun g hg => h (List.mem_append_left _ hg)
    have hbody : body.callees ⊆ L.callees := fun g hg => h (List.mem_append_right _ hg)
    simp only [Stmt.lower, Stmt.mapPos, Expr.print_mapPos]
    refine (comment_steps _).next fun _ => L.current.bind fun cur cur' hcur => ?_
    refine fork_steps hcur.2 fun a a' b b' d d' ha hb hd =>
      (branchUnlessTerminated_steps ha).next fun _ => ?_
    refine (L.positionAtEnd ha).next fun _ => (test_steps hc).next fun v =>
      (L.condBranch hb hd).next fun _ => ?_
    refine (L.positionAtEnd hb).next fun _ => (body.lower_steps hbody).next fun _ => ?_
    exact (branchUnlessTerminated_steps ha).next fun _ => L.positionAtEnd hd
  | .block b, h => b.lower_steps h

theorem Block.lower_steps :
    ∀ b : Block, b.callees ⊆ L.callees → L.Steps b.lower (b.mapPos L.place).lower
  | .mk _ ss, h =>
    pushScope_steps.next fun _ => (Stmt.lowerList_steps ss h).next fun _ => leaveScope_steps

theorem Stmt.lowerList_steps : ∀ ss : List Stmt, Stmt.calleesList ss ⊆ L.callees →
    L.Steps (Stmt.lowerList ss) (Stmt.lowerList (Stmt.mapPosList L.place ss))
  | [], _ => paired_return ()
  | s :: ss, h => by
    have hs : s.callees ⊆ L.callees := fun g hg => h (List.mem_append_left _ hg)
    have hss : Stmt.calleesList ss ⊆ L.callees := fun g hg => h (List.mem_append_right _ hg)
    simp only [Stmt.lowerList, Stmt.mapPosList, Stmt.length_mapPosList]
    apply Paired.next (L.code rfl)
    intro closed
    cases closed with
    | true => exact comment_steps _
    | false => exact (s.lower_steps hs).next fun _ => Stmt.lowerList_steps ss hss

end

theorem Lockstep.fallOff_steps (ret : Ty) : L.Steps (fallOff ret) (fallOff ret) := by
  apply Paired.next (L.code rfl)
  intro closed
  cases closed with
  | true => exact paired_return ()
  | false =>
    refine popScope_steps.next fun frame => (release_steps _).next fun _ => ?_
    cases ret with
    | pointer p => exact L.code rfl
    | plain p => exact (zero_steps p).next fun z => L.code rfl

/-- The part of a body that comes after its entry block. -/
theorem Definition.lowerBody_steps (d : Definition) {g g' : FunctionId} (hd : d.callees ⊆ L.callees)
    (hg : ∀ i, L.Steps (emit (.functionParam g i)) (emit (.functionParam g' i))) :
    L.Steps
      (comment ("function " ++ d.prototype.print) >>= fun _ => pushScope >>= fun _ =>
        bindParams g 0 d.prototype.params >>= fun _ => Stmt.lowerList d.body.statements >>= fun _ =>
          fallOff d.prototype.ret)
      (comment ("function " ++ d.prototype.print) >>= fun _ => pushScope >>= fun _ =>
        bindParams g' 0 (d.mapPos L.place).prototype.params >>= fun _ =>
          Stmt.lowerList (d.mapPos L.place).body.statements >>= fun _ =>
            fallOff d.prototype.ret) := by
  have hstmts : Stmt.calleesList d.body.statements ⊆ L.callees := by
    obtain ⟨_, _, ⟨_, ss⟩⟩ := d
    exact hd
  refine (comment_steps _).next fun _ => pushScope_steps.next fun _ =>
    (bindParams_steps _ hg 0).next fun _ => ?_
  simp only [Definition.mapPos, Block.statements_mapPos]
  exact (Stmt.lowerList_steps _ hstmts).next fun _ => fallOff_steps _

end ImpFront

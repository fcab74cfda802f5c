import Mathlib
import ImpFront.Proofs.Meaning
import ImpFront.Proofs.Scopes
import ImpFront.Proofs.Shape

/-! Lowered code does what the tree means: whatever a run of a tree gives, a run of its code gives
too. New code writes only to new registers, so that what the names in scope stand for is not lost on
the way. -/

namespace ImpFront

variable {W : World} {args : List Datum} {F : Func} {s s' s'' : Machine} {n n' n'' : Nat}
  {is js : List Instr}

namespace Machine

theorem steps?_append (s : Machine) (is js : List Instr) :
    s.steps? W args (is ++ js) = (s.steps? W args is).bind fun s' => s'.steps? W args js := by
  induction is generalizing s with
  | nil => rfl
  | cons i is ih =>
    simp only [List.cons_append, steps?, Option.bind_assoc]
    exact congrArg _ (funext ih)

@[simp] theorem set_memory (s : Machine) (r : Reg) (v : Datum) : (s.set r v).memory = s.memory :=
  rfl

@[simp] theorem operand_set (s : Machine) (r : Reg) (v : Datum) :
    (s.set r v).operand args (.reg r) = some v := by
  simp [operand, set]

@[simp] theorem operand_int (s : Machine) (value : Word) :
    s.operand args (.int value) = some (.int value) := rfl

@[simp] theorem operand_double (s : Machine) (value : Double) :
    s.operand args (.double value) = some (.double value) :=
  rfl

/-- Straight code that writes to no register below `n`. -/
structure Goes (W : World) (args : List Datum) (s : Machine) (is : List Instr) (n : Nat)
    (s' : Machine) : Prop where
  steps : s.steps? W args is = some s'
  keeps : ∀ r : Reg, r.index < n → s'.regs r = s.regs r

/-- An operand that holds data, and does so while no register below `n` is written to. -/
structure Holds (args : List Datum) (s : Machine) (n : Nat) (v : Value) (x : Datum) : Prop where
  below : ∀ r, v = .reg r → r.index < n
  value : s.operand args v = some x

theorem Holds.mono {v : Value} {x : Datum} (h : s.Holds args n v x) (hn : n ≤ n') :
    s.Holds args n' v x :=
  ⟨fun r hr => (h.below r hr).trans_le hn, h.value⟩

theorem Holds.keep {v : Value} {x : Datum} (h : s.Holds args n v x)
    (hkeeps : ∀ r : Reg, r.index < n → s'.regs r = s.regs r) : s'.Holds args n v x := by
  refine ⟨h.below, ?_⟩
  have hvalue := h.value
  cases v with
  | reg r => rw [operand, hkeeps r (h.below r rfl)]; exact hvalue
  | int | double | arg => exact hvalue

namespace Goes

theorem nil (s : Machine) (n : Nat) : s.Goes W args [] n s := ⟨rfl, fun _ _ => rfl⟩

theorem trans (h : s.Goes W args is n s') (h' : s'.Goes W args js n' s'') (hn : n ≤ n') :
    s.Goes W args (is ++ js) n s'' where
  steps := by rw [steps?_append, h.steps]; exact h'.steps
  keeps r hr := (h'.keeps r (hr.trans_le hn)).trans (h.keeps r hr)

/-- An instruction that defines the next register. -/
theorem define {i : Instr} {v : Datum} {m : Memory}
    (h : s.step? W args i = some ({ s with memory := m }.set ⟨n⟩ v)) :
    s.Goes W args [i] n ({ s with memory := m }.set ⟨n⟩ v) := by
  refine ⟨by simp [steps?, h], fun r hr => ?_⟩
  have hne : r ≠ ⟨n⟩ := fun he => by simp [he] at hr
  simp [set, Function.update_of_ne hne]

/-- An instruction that defines nothing. -/
theorem single {i : Instr} {m : Memory} (n : Nat)
    (h : s.step? W args i = some { s with memory := m }) :
    s.Goes W args [i] n { s with memory := m } :=
  ⟨by simp [steps?, h], fun _ _ => rfl⟩

end Goes

end Machine

theorem Machine.Holds.defined (args : List Datum) (s : Machine) (n : Nat) (x : Datum) :
    (s.set ⟨n⟩ x).Holds args (n + 1) (.reg ⟨n⟩) x :=
  ⟨fun r hr => by cases hr; exact Nat.lt_succ_self n, operand_set s ⟨n⟩ x⟩

/-- Data that straight code computes without a change of memory. -/
def Machine.Computes (W : World) (args : List Datum) (s : Machine) (is : List Instr) (n : Nat)
    (v : Value) (n' : Nat) (x : Datum) : Prop :=
  ∃ s', s.Goes W args is n s' ∧ s'.memory = s.memory ∧ s'.Holds args n' v x

namespace Machine.Computes

theorem nil {v : Value} {x : Datum} (h : s.Holds args n v x) : s.Computes W args [] n v n x :=
  ⟨s, .nil s n, rfl, h⟩

theorem define {i : Instr} {x : Datum} (h : s.step? W args i = some (s.set ⟨n⟩ x)) :
    s.Computes W args [i] n (.reg ⟨n⟩) (n + 1) x :=
  ⟨s.set ⟨n⟩ x, .define (m := s.memory) h, rfl, .defined args s n x⟩

theorem load {v : Value} {a c : Datum} {p : Prim} (h : s.Holds args n v a)
    (hc : s.memory.read? p a = some c) :
    s.Computes W args [.load ⟨n⟩ p v] n (.reg ⟨n⟩) (n + 1) c :=
  define (by simp [Machine.step?, h.value, hc])

end Machine.Computes

theorem PlainCode.computes {t : Typed} {v : Value} {p q : Prim} {x y : Datum}
    (h : PlainCode t n is v p n') (ht : s.Holds args n t.value x)
    (hx : plain? s.memory x t.ty = some (y, q)) :
    q = p ∧ s.Computes W args is n v n' y := by
  cases h with
  | pointer w p =>
    simp only [plain?, Option.map_eq_some_iff, Prod.mk.injEq] at hx
    obtain ⟨c, hc, rfl, rfl⟩ := hx
    exact ⟨rfl, .load ht hc⟩
  | bool w =>
    cases x <;> simp only [plain?, reduceCtorEq] at hx
    cases hx
    exact ⟨rfl, .define (by simp [Machine.step?, ht.value, World.cast])⟩
  | plain w p =>
    cases hx
    exact ⟨rfl, .nil ht⟩

theorem CastCode.computes {v w : Value} {p q : Prim} {x y : Datum} (h : CastCode v p q n is w n')
    (hv : s.Holds args n v x) (hx : convert? W p q x = some y) : s.Computes W args is n w n' y := by
  cases h with
  | same v p =>
    obtain rfl : x = y := by
      cases p <;> cases x <;> simp_all [convert?]
    exact .nil hv
  | widen v =>
    cases x <;> simp only [convert?, reduceCtorEq] at hx
    cases hx
    exact .define (by simp [Machine.step?, hv.value, World.cast])
  | narrow v =>
    cases x <;> simp only [convert?, reduceCtorEq] at hx
    cases hx
    exact .define (by simp [Machine.step?, hv.value, World.cast])

theorem CoerceCode.computes {t : Typed} {ty : Ty} {v : Value} {x y : Datum}
    (h : CoerceCode t ty n is v n') (ht : s.Holds args n t.value x)
    (hx : coerce? W s.memory x t.ty ty = some y) : s.Computes W args is n v n' y := by
  cases h with
  | plain hp hc =>
    simp only [coerce?, Option.bind_eq_bind, Option.bind_eq_some_iff, Prod.exists] at hx
    obtain ⟨c, p, hplain, hconvert⟩ := hx
    obtain ⟨rfl, s₁, hgoes, hmem, hv⟩ := hp.computes (W := W) ht hplain
    obtain ⟨s₂, hgoes', hmem', hw⟩ := hc.computes hv hconvert
    exact ⟨s₂, hgoes.trans hgoes' hp.le, hmem'.trans hmem, hw⟩
  | pointer w p =>
    simp only [coerce?, if_true, Option.some.injEq] at hx
    cases hx
    exact .nil ht

theorem convert?_hasPrim {p q : Prim} {x y : Datum} (h : convert? W p q x = some y) :
    y.hasPrim q = true := by
  cases p <;> cases q <;> cases x <;> simp only [convert?, reduceCtorEq, Option.some.injEq] at h <;>
    subst h <;> rfl

/-- The instruction of an operation on converted operands. -/
theorem step?_instr {op : BinOp} {p : Prim} {v w : Value} {x y z : Datum}
    (hv : s.operand args v = some x) (hw : s.operand args w = some y)
    (hx : x.hasPrim p = true) (hy : y.hasPrim p = true) (h : op.result? W x y = some z) :
    s.step? W args (op.instr ⟨n⟩ p v w) = some (s.set ⟨n⟩ z) := by
  cases p with
  | int =>
    cases x <;> simp only [Datum.hasPrim, Bool.false_eq_true] at hx
    cases y <;> simp only [Datum.hasPrim, Bool.false_eq_true] at hy
    cases op <;> simp only [BinOp.result?, Option.some.injEq] at h <;> subst h <;>
      simp [BinOp.instr, Machine.step?, hv, hw, World.arith, World.compare, BitVec.ult]
  | double =>
    cases x <;> simp only [Datum.hasPrim, Bool.false_eq_true] at hx
    cases y <;> simp only [Datum.hasPrim, Bool.false_eq_true] at hy
    cases op <;> simp only [BinOp.result?, Option.some.injEq] at h <;> subst h <;>
      simp [BinOp.instr, Machine.step?, hv, hw, World.arith, World.compare]

theorem CombineCode.computes {op : BinOp} {l r t : Typed} {p q : Prim} {x y x' y' x'' y'' z : Datum}
    (h : CombineCode op l r n is t n') (hl : s.Holds args n l.value x)
    (hr : s.Holds args n r.value y) (hx : plain? s.memory x l.ty = some (x', p))
    (hy : plain? s.memory y r.ty = some (y', q)) (hx' : convert? W p (p.wider q) x' = some x'')
    (hy' : convert? W q (p.wider q) y' = some y'') (hop : op.result? W x'' y'' = some z) :
    t.ty = op.resultTy (p.wider q) ∧ s.Computes W args is n t.value n' z := by
  cases h with
  | mk h₁ h₂ h₃ h₄ =>
    obtain ⟨rfl, s₁, g₁, m₁, v₁⟩ := h₁.computes (W := W) hl hx
    obtain ⟨rfl, s₂, g₂, m₂, v₂⟩ := h₂.computes (W := W) ((hr.keep g₁.keeps).mono h₁.le) (m₁ ▸ hy)
    obtain ⟨s₃, g₃, m₃, v₃⟩ := h₃.computes ((v₁.keep g₂.keeps).mono h₂.le) hx'
    obtain ⟨s₄, g₄, m₄, v₄⟩ := h₄.computes ((v₂.keep g₃.keeps).mono h₃.le) hy'
    have hstep := fun k => step?_instr (n := k) ((v₃.keep g₄.keeps).value) v₄.value
      (convert?_hasPrim hx') (convert?_hasPrim hy') hop
    have g :=
      ((g₁.trans g₂ h₁.le).trans g₃ (h₁.le.trans h₂.le)).trans g₄ (h₁.le.trans (h₂.le.trans h₃.le))
    refine ⟨rfl, _, g.trans (.define (m := s₄.memory) (hstep _))
      (h₁.le.trans (h₂.le.trans (h₃.le.trans h₄.le))), ?_, .defined args s₄ _ z⟩
    exact m₄.trans (m₃.trans (m₂.trans m₁))

theorem truth?_plain {m : Memory} {x : Datum} {p : Prim} {b : Bool}
    (h : truth? W m x (.plain p) = some b) {v : Value} (hv : s.operand args v = some x) :
    s.step? W args (.compare ⟨n⟩ .ne p v p.zeroValue) = some (s.set ⟨n⟩ (.bool b)) := by
  cases p with
  | int =>
    cases x <;> simp only [truth?, plain?, Option.bind_eq_bind, Option.bind_some, reduceCtorEq,
      Option.some.injEq] at h
    subst h
    simp [Machine.step?, hv, Prim.zeroValue, World.compare]
  | double =>
    cases x <;> simp only [truth?, plain?, Option.bind_eq_bind, Option.bind_some, reduceCtorEq,
      Option.some.injEq] at h
    subst h
    simp [Machine.step?, hv, Prim.zeroValue, World.compare]

theorem ConditionCode.computes {t : Typed} {v : Value} {x : Datum} {b : Bool}
    (h : ConditionCode t n is v n') (ht : s.Holds args n t.value x)
    (hx : truth? W s.memory x t.ty = some b) :
    s.Computes W args is n v n' (.bool b) := by
  cases h with
  | bool w =>
    cases x <;> simp only [truth?, plain?, Option.bind_eq_bind, Option.bind_none, reduceCtorEq,
      Option.some.injEq] at hx
    subst hx
    exact .nil ht
  | plain w p => exact .define (truth?_plain hx ht.value)
  | pointer w p =>
    simp only [truth?, plain?, Option.bind_eq_bind, Option.bind_eq_some_iff, Option.map_eq_some_iff,
      Prod.exists, Prod.mk.injEq] at hx
    obtain ⟨_, _, ⟨c, hc, rfl, rfl⟩, hb⟩ := hx
    obtain ⟨s₁, g₁, m₁, v₁⟩ := Machine.Computes.load (W := W) ht hc
    have htruth : truth? W s₁.memory c (.plain p) = some b := by simpa [truth?, plain?] using hb
    obtain ⟨s₂, g₂, m₂, v₂⟩ : s₁.Computes W args _ (n + 1) _ _ _ :=
      .define (truth?_plain htruth v₁.value)
    exact ⟨s₂, g₁.trans g₂ (Nat.le_succ n), m₂.trans m₁, v₂⟩

theorem ContentCode.computes {ty : Ty} {v w : Value} {x y : Datum} (h : ContentCode ty v n is w n')
    (hv : s.Holds args n v x) (hx : content? s.memory x ty = some y) :
    s.Computes W args is n w n' y := by
  cases h with
  | plain p =>
    cases hx
    exact .nil hv
  | pointer p => exact .load hv hx

/-- A declaration of the scopes and the same one of the environment. -/
structure Bound (args : List Datum) (s : Machine) (n : Nat) (d : String × Local Value)
    (b : String × Ty × Datum) :
    Prop where
  name : b.1 = d.1
  ty : b.2.1 = d.2.ty
  holds : s.Holds args n d.2.storage b.2.2
  cell : d.2.heap = true → ∃ a, b.2.2 = .cell a

/-- The scopes of the code and the environment of the tree hold the same declarations. -/
def Matches (args : List Datum) (s : Machine) (n : Nat) (sc : Scopes Value) (env : Env) : Prop :=
  List.Forall₂ (Bound args s n) sc.flatten env

variable {sc : Scopes Value} {env : Env}

theorem Matches.keep (h : Matches args s n sc env)
    (hkeeps : ∀ r : Reg, r.index < n → s'.regs r = s.regs r) (hn : n ≤ n') :
    Matches args s' n' sc env :=
  h.imp fun _ _ hb => ⟨hb.name, hb.ty, (hb.holds.keep hkeeps).mono hn, hb.cell⟩

/-- The innermost declaration wins on both sides. -/
theorem Matches.lookup {x : String} {i : Nat} {l : Local Value} (h : Matches args s n sc env)
    (hl : sc.lookup x = some (i, l)) :
    ∃ a, env.lookup x = some (l.ty, a) ∧ s.Holds args n l.storage a ∧
    (l.heap = true → ∃ k, a = .cell k) := by
  have hfind := Scopes.find?_flatten hl
  unfold Matches at h
  generalize sc.flatten = ds at h hfind
  induction h with
  | nil => simp at hfind
  | @cons d b ds bs hb _ ih =>
    obtain ⟨name, ty, a⟩ := b
    have hname : name = d.1 := hb.name
    subst hname
    by_cases hx : d.1 = x
    · subst hx
      obtain ⟨y, l'⟩ := d
      obtain rfl : l' = l := by simpa using hfind
      have hty : ty = l'.ty := hb.ty
      exact ⟨a, by simp [hty], hb.holds, hb.cell⟩
    · obtain ⟨a', ha', hrest⟩ := ih (by simpa [hx] using hfind)
      refine ⟨a', ?_, hrest⟩
      rw [List.lookup_cons, beq_eq_false_iff_ne.2 (Ne.symm hx)]
      exact ha'

variable {Γ : Signatures}

/-- All of these hold heap cells. -/
def HoldCells (args : List Datum) (s : Machine) (n : Nat) (vs : List Value) : Prop :=
  ∀ v ∈ vs, ∃ a, s.Holds args n v (.cell a)

theorem HoldCells.keep {vs : List Value} (h : HoldCells args s n vs)
    (hkeeps : ∀ r : Reg, r.index < n → s'.regs r = s.regs r) (hn : n ≤ n') :
    HoldCells args s' n' vs := fun v hv => by
  obtain ⟨a, ha⟩ := h v hv
  exact ⟨a, (ha.keep hkeeps).mono hn⟩

theorem mapM_operand {vs : List Value} {xs : List Datum} (h : List.Forall₂ (s.Holds args n) vs xs) :
    vs.mapM (s.operand args) = some xs := by
  induction h with
  | nil => rfl
  | cons hv _ ih => simp [List.mapM_cons, hv.value, ih]

theorem BinOp.resultTy_eq (op : BinOp) (p : Prim) :
    op.resultTy p = if op = .less then .bool else .plain p := by
  cases op <;> rfl

theorem exists_cell_of_hasTy {ty : Ty} {v : Datum} (hty : ty.isPointer = true)
    (hv : v.hasTy ty = true) :
    ∃ a, v = .cell a := by
  cases ty with
  | plain => simp [Ty.isPointer] at hty
  | pointer => cases v <;> simp_all [Datum.hasTy]

theorem step?_call (W : World) (callee : String) (n : Nat) {vs : List Value} {xs : List Datum}
    (h : List.Forall₂ (s.Holds args n') vs xs) :
    s.step? W args (.call ⟨n⟩ callee vs) =
      some ({ s with
        memory := { s.memory with heap := (W.call callee xs s.memory.heap).2 } }.set ⟨n⟩
        (W.call callee xs s.memory.heap).1) := by
  simp [Machine.step?, mapM_operand h]

mutual

theorem ExprCode.runs : ∀ {e n is t n' ts}, ExprCode Γ sc e n is t n' ts →
    ∀ {s : Machine} {x ty m},
      Matches args s n sc env → e.eval W Γ.find? env s.memory = some (x, ty, m) →
    ∃ s', s.Goes W args is n s' ∧ s'.memory = m ∧ ty = t.ty ∧ s'.Holds args n' t.value x ∧
    HoldCells args s' n' ts
  | _, _, _, _, _, _, .int .., s, x, ty, m, _, heval => by
    simp only [Expr.eval, Option.some.injEq, Prod.mk.injEq] at heval
    obtain ⟨rfl, rfl, rfl⟩ := heval
    exact ⟨s, .nil s _, rfl, rfl, ⟨by simp, rfl⟩, by simp [HoldCells]⟩
  | _, _, _, _, _, _, .double .., s, x, ty, m, _, heval => by
    simp only [Expr.eval, Option.some.injEq, Prod.mk.injEq] at heval
    obtain ⟨rfl, rfl, rfl⟩ := heval
    exact ⟨s, .nil s _, rfl, rfl, ⟨by simp, rfl⟩, by simp [HoldCells]⟩
  | _, _, _, _, _, _, .slot pos n hl, s, x, ty, m, hm, heval => by
    obtain ⟨a, ha, hstorage, -⟩ := hm.lookup hl
    simp only [Expr.eval, ha, Option.bind_eq_bind, Option.bind_some, Option.map_eq_some_iff,
      Prod.mk.injEq] at heval
    obtain ⟨c, hc, rfl, rfl, rfl⟩ := heval
    obtain ⟨s', hgoes, hmem, hv⟩ := Machine.Computes.load (W := W) hstorage hc
    exact ⟨s', hgoes, hmem, rfl, hv, by simp [HoldCells]⟩
  | _, _, _, _, _, _, .pointer pos n hl, s, x, ty, m, hm, heval => by
    obtain ⟨a, ha, hstorage, -⟩ := hm.lookup hl
    simp only [Expr.eval, ha, Option.bind_eq_bind, Option.bind_some, Option.some.injEq,
      Prod.mk.injEq] at heval
    obtain ⟨rfl, rfl, rfl⟩ := heval
    exact ⟨s, .nil s _, rfl, rfl, hstorage, by simp [HoldCells]⟩
  | _, _, _, _, _, _, .binary pos hl hr hc, s, x, ty, m, hm, heval => by
    simp only [Expr.eval, Option.bind_eq_bind, Option.bind_eq_some_iff, Prod.exists,
      Option.pure_def, Option.some.injEq, Prod.mk.injEq] at heval
    obtain ⟨a, t', m₁, hleft, b, u', m₂, hright, a', p, hpa, b', q, hqb, a'', ha, b'', hb, z, hz,
        rfl, rfl, rfl⟩ := heval
    obtain ⟨s₁, g₁, rfl, rfl, v₁, c₁⟩ := hl.runs hm hleft
    obtain ⟨s₂, g₂, rfl, rfl, v₂, c₂⟩ := hr.runs (hm.keep g₁.keeps hl.le) hright
    obtain ⟨hty, s₃, g₃, m₃, v₃⟩ := hc.computes ((v₁.keep g₂.keeps).mono hr.le) v₂ hpa hqb ha hb hz
    refine ⟨s₃, (g₁.trans g₂ hl.le).trans g₃ (hl.le.trans hr.le), m₃, ?_, v₃, ?_⟩
    · rw [hty, BinOp.resultTy_eq]
      rfl
    · have c₁' := c₁.keep g₂.keeps hr.le
      exact List.forall_mem_append.2 ⟨c₂.keep g₃.keeps hc.le, c₁'.keep g₃.keeps hc.le⟩
  | _, _, _, _, _, _, .call (f := f) pos hf hargs, s, x, ty, m, hm, heval => by
    simp only [Expr.eval, hf, Option.bind_eq_bind, Option.bind_some, Option.bind_eq_some_iff,
      Prod.exists] at heval
    obtain ⟨xs, m₁, hvalues, hcall⟩ := heval
    obtain ⟨s₁, g₁, rfl, hxs, c₁⟩ := hargs.runs hm hvalues
    split at hcall
    · rename_i hfits
      simp only [Option.some.injEq, Prod.mk.injEq] at hcall
      obtain ⟨rfl, rfl, rfl⟩ := hcall
      have hstep := fun k => step?_call W f k hxs
      refine ⟨_, g₁.trans (.define (hstep _)) hargs.le, rfl, rfl, .defined args _ _ _,
        List.forall_mem_append.2 ⟨?_, ?_⟩⟩
      · intro v hv
        split at hv
        · rename_i hpointer
          obtain ⟨a, ha⟩ := exists_cell_of_hasTy hpointer hfits
          refine ⟨a, ?_⟩
          rw [List.mem_singleton.1 hv, ← ha]
          exact .defined args _ _ _
        · cases hv
      · exact c₁.keep (Machine.Goes.define (hstep _)).keeps (Nat.le_succ _)
    · cases hcall

theorem ArgsCode.runs : ∀ {es tys n is vs n' ts}, ArgsCode Γ sc es tys n is vs n' ts →
    ∀ {s : Machine} {xs m},
      Matches args s n sc env → Expr.evalArgs W Γ.find? env es tys s.memory = some (xs, m) →
    ∃ s', s.Goes W args is n s' ∧ s'.memory = m ∧ List.Forall₂ (s'.Holds args n') vs xs ∧
    HoldCells args s' n' ts
  | _, _, _, _, _, _, _, .nil .., s, xs, m, _, heval => by
    simp only [Expr.evalArgs, Option.some.injEq, Prod.mk.injEq] at heval
    obtain ⟨rfl, rfl⟩ := heval
    exact ⟨s, .nil s _, rfl, .nil, by simp [HoldCells]⟩
  | _, _, _, _, _, _, _, .cons he hc hs, s, xs, m, hm, heval => by
    simp only [Expr.evalArgs, Option.bind_eq_bind, Option.bind_eq_some_iff, Prod.exists,
      Option.pure_def, Option.some.injEq, Prod.mk.injEq] at heval
    obtain ⟨x, t', m₁, hx, y, hy, ys, m₂, hys, rfl, rfl⟩ := heval
    obtain ⟨s₁, g₁, rfl, rfl, v₁, c₁⟩ := he.runs hm hx
    obtain ⟨s₂, g₂, m₂', v₂⟩ := hc.computes v₁ hy
    have hm₂ := (hm.keep g₁.keeps he.le).keep g₂.keeps hc.le
    obtain ⟨s₃, g₃, rfl, hrest, c₃⟩ := hs.runs hm₂ (m₂' ▸ hys)
    refine ⟨s₃, (g₁.trans g₂ he.le).trans g₃ (he.le.trans hc.le), rfl,
      .cons ((v₂.keep g₃.keeps).mono hs.le) hrest, ?_⟩
    exact List.forall_mem_append.2 ⟨c₃, (c₁.keep g₂.keeps hc.le).keep g₃.keeps hs.le⟩

end

end ImpFront

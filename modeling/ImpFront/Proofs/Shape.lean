import Mathlib
import ImpFront.Compile

/-! What lowered code looks like, apart from how it is written down. Each relation ties a tree,
under the scopes it stands in, to the instructions of its code; `n` and `n'` are the numbers of the
next register before and after. Straight code is a list of instructions. Code with branches is given
inside a finished function `G`, as what is left of a block where the code begins and what is left
where control leaves it, if it does. -/

namespace ImpFront

/-- The kind on which a binary operation works. -/
def Prim.wider (p q : Prim) : Prim := if p = .double ∨ q = .double then .double else .int

def Prim.zeroValue : Prim → Value
  | .int => .int 0
  | .double => .double .zero

def BinOp.instr (dst : Reg) (p : Prim) (l r : Value) : BinOp → Instr
  | .add => .arith dst .add p l r
  | .sub => .arith dst .sub p l r
  | .mul => .arith dst .mul p l r
  | .less => .compare dst .lt p l r

def BinOp.resultTy (p : Prim) : BinOp → ValTy
  | .less => .bool
  | _ => .plain p

/-- The instruction that makes room for a declared name. -/
def Ty.allocInstr (dst : Reg) (name : String) : Ty → Instr
  | .plain p => .stackAlloc dst p name
  | .pointer p => .heapAlloc dst p name

/-- The operand that stands for a parameter. -/
def paramValue (index : Nat) : Value := .arg (index % Recorder.paramLimit)

def freeCode (vs : List Value) : List Instr := vs.map .heapFree

/-- The end of a statement: its temporaries are released. -/
def settleCode (ts : List Value) : List Instr :=
  (if ts.isEmpty then []
    else [.comment ("release " ++ toString ts.length ++ " returned heap cells")]) ++ freeCode ts

/-- The end of a block: its heap cells are released. -/
def leaveCode (cells : List Value) : List Instr :=
  (if cells.isEmpty then []
    else [.comment ("release " ++ toString cells.length ++ " heap cells")]) ++ freeCode cells

inductive PlainCode : Typed → Nat → List Instr → Value → Prim → Nat → Prop
  | pointer (v : Value) (p : Prim) (n : Nat) :
      PlainCode ⟨v, .pointer p⟩ n [.load ⟨n⟩ p v] (.reg ⟨n⟩) p (n + 1)
  | bool (v : Value) (n : Nat) :
      PlainCode ⟨v, .bool⟩ n [.cast ⟨n⟩ .boolToInt v] (.reg ⟨n⟩) .int (n + 1)
  | plain (v : Value) (p : Prim) (n : Nat) : PlainCode ⟨v, .plain p⟩ n [] v p n

inductive CastCode : Value → Prim → Prim → Nat → List Instr → Value → Nat → Prop
  | same (v : Value) (p : Prim) (n : Nat) : CastCode v p p n [] v n
  | widen (v : Value) (n : Nat) :
      CastCode v .int .double n [.cast ⟨n⟩ .intToDouble v] (.reg ⟨n⟩) (n + 1)
  | narrow (v : Value) (n : Nat) :
      CastCode v .double .int n [.cast ⟨n⟩ .doubleToInt v] (.reg ⟨n⟩) (n + 1)

inductive CoerceCode : Typed → Ty → Nat → List Instr → Value → Nat → Prop
  | plain {t : Typed} {p q : Prim} {n n' n'' : Nat} {is js : List Instr} {v w : Value} :
      PlainCode t n is v p n' → CastCode v p q n' js w n'' →
        CoerceCode t (.plain q) n (is ++ js) w n''
  | pointer (v : Value) (p : Prim) (n : Nat) : CoerceCode ⟨v, .pointer p⟩ (.pointer p) n [] v n

inductive CombineCode : BinOp → Typed → Typed → Nat → List Instr → Typed → Nat → Prop
  | mk {op : BinOp} {l r : Typed} {p q : Prim} {n₀ n₁ n₂ n₃ n₄ : Nat} {is₁ is₂ is₃ is₄ : List Instr}
      {v₁ v₂ v₃ v₄ : Value} :
      PlainCode l n₀ is₁ v₁ p n₁ → PlainCode r n₁ is₂ v₂ q n₂ →
      CastCode v₁ p (p.wider q) n₂ is₃ v₃ n₃ → CastCode v₂ q (p.wider q) n₃ is₄ v₄ n₄ →
      CombineCode op l r n₀ (is₁ ++ is₂ ++ is₃ ++ is₄ ++ [op.instr ⟨n₄⟩ (p.wider q) v₃ v₄])
        ⟨.reg ⟨n₄⟩, op.resultTy (p.wider q)⟩ (n₄ + 1)

inductive ConditionCode : Typed → Nat → List Instr → Value → Nat → Prop
  | bool (v : Value) (n : Nat) : ConditionCode ⟨v, .bool⟩ n [] v n
  | plain (v : Value) (p : Prim) (n : Nat) :
      ConditionCode ⟨v, .plain p⟩ n [.compare ⟨n⟩ .ne p v p.zeroValue] (.reg ⟨n⟩) (n + 1)
  | pointer (v : Value) (p : Prim) (n : Nat) :
      ConditionCode ⟨v, .pointer p⟩ n [.load ⟨n⟩ p v, .compare ⟨n + 1⟩ .ne p (.reg ⟨n⟩) p.zeroValue]
        (.reg ⟨n + 1⟩) (n + 2)

mutual

/-- The code of an expression, its value, and the heap cells that its calls leave behind, the last
first. -/
inductive ExprCode (Γ : Signatures) (sc : Scopes Value) :
    Expr → Nat → List Instr → Typed → Nat → List Value → Prop
  | int (pos : Nat) (w : Word) (n : Nat) :
      ExprCode Γ sc (.int pos w) n [] ⟨.int w, .plain .int⟩ n []
  | double (pos : Nat) (x : Double) (n : Nat) :
      ExprCode Γ sc (.double pos x) n [] ⟨.double x, .plain .double⟩ n []
  | slot {x : String} {i : Nat} {v : Value} {p : Prim} {heap : Bool} (pos n : Nat) :
      sc.lookup x = some (i, ⟨v, .plain p, heap⟩) →
      ExprCode Γ sc (.var pos x) n [.load ⟨n⟩ p v] ⟨.reg ⟨n⟩, .plain p⟩ (n + 1) []
  | pointer {x : String} {i : Nat} {v : Value} {p : Prim} {heap : Bool} (pos n : Nat) :
      sc.lookup x = some (i, ⟨v, .pointer p, heap⟩) →
      ExprCode Γ sc (.var pos x) n [] ⟨v, .pointer p⟩ n []
  | binary {op : BinOp} {l r : Expr} {n n' n'' m : Nat} {is js ks : List Instr} {t u w : Typed}
      {ts us : List Value} (pos : Nat) :
      ExprCode Γ sc l n is t n' ts → ExprCode Γ sc r n' js u n'' us →
        CombineCode op t u n'' ks w m →
      ExprCode Γ sc (.binary pos op l r) n (is ++ js ++ ks) w m (us ++ ts)
  | call {f : String} {args : List Expr} {signature : Signature} {n n' : Nat} {is : List Instr}
      {vs ts : List Value} (pos : Nat) :
      Γ.find? f = some signature → ArgsCode Γ sc args signature.params n is vs n' ts →
      ExprCode Γ sc (.call pos f args) n (is ++ [.call ⟨n'⟩ f vs]) ⟨.reg ⟨n'⟩,
        .ofTy signature.ret⟩ (n' + 1)
        ((if signature.ret.isPointer then [.reg ⟨n'⟩] else []) ++ ts)

inductive ArgsCode (Γ : Signatures) (sc : Scopes Value) :
    List Expr → List Ty → Nat → List Instr → List Value → Nat → List Value → Prop
  | nil (n : Nat) : ArgsCode Γ sc [] [] n [] [] n []
  | cons {e : Expr} {es : List Expr} {ty : Ty} {tys : List Ty} {n n' n'' m : Nat}
      {is js ks : List Instr}
      {t : Typed} {v : Value} {vs ts us : List Value} :
      ExprCode Γ sc e n is t n' ts → CoerceCode t ty n' js v n'' →
        ArgsCode Γ sc es tys n'' ks vs m us →
      ArgsCode Γ sc (e :: es) (ty :: tys) n (is ++ js ++ ks) (v :: vs) m (us ++ ts)

end

/-- The code of a declaration, and the scopes behind it. -/
inductive DeclareCode (ty : Ty) :
    Scopes Value → List String → Nat → List Instr → Scopes Value → Nat → Prop
  | nil (sc : Scopes Value) (n : Nat) : DeclareCode ty sc [] n [] sc n
  | cons {frame : Frame Value} {sc sc' : Scopes Value} {x : String} {xs : List String} {n n' : Nat}
      {is : List Instr} :
      frame.find? x = none →
      DeclareCode ty (((x, ⟨.reg ⟨n⟩, ty, ty.isPointer⟩) :: frame) :: sc) xs (n + 1) is sc' n' →
      DeclareCode ty (frame :: sc) (x :: xs) n (ty.allocInstr ⟨n⟩ x :: is) sc' n'

/-- What is stored into a variable of a type: the value itself, or what the cell behind it holds. -/
inductive ContentCode : Ty → Value → Nat → List Instr → Value → Nat → Prop
  | plain (p : Prim) (v : Value) (n : Nat) : ContentCode (.plain p) v n [] v n
  | pointer (p : Prim) (v : Value) (n : Nat) :
      ContentCode (.pointer p) v n [.load ⟨n⟩ p v] (.reg ⟨n⟩) (n + 1)

inductive AssignCode (Γ : Signatures) (sc : Scopes Value) :
    String → Expr → Nat → List Instr → Nat → Prop
  | mk {x : String} {e : Expr} {i : Nat} {l : Local Value} {n n₁ n₂ n₃ : Nat}
      {is js ks : List Instr} {t : Typed}
      {v w : Value} {ts : List Value} :
      sc.lookup x = some (i, l) → ExprCode Γ sc e n is t n₁ ts → CoerceCode t l.ty n₁ js v n₂ →
      ContentCode l.ty v n₂ ks w n₃ →
      AssignCode Γ sc x e n (is ++ js ++ ks ++ [.store w l.storage] ++ settleCode ts) n₃

inductive TestCode (Γ : Signatures) (sc : Scopes Value) :
    Expr → Nat → List Instr → Value → Nat → Prop
  | mk {e : Expr} {n n' n'' : Nat} {is js : List Instr} {t : Typed} {v : Value} {ts : List Value} :
      ExprCode Γ sc e n is t n' ts → ConditionCode t n' js v n'' →
      TestCode Γ sc e n (is ++ js ++ settleCode ts) v n''

/-- How the value of a return gets ready to be handed out, and which temporaries are left to
release. -/
inductive ResultCode (sc : Scopes Value) :
    Ty → Expr → Value → List Value → Nat → List Instr → Value → List Value →
    Nat → Prop
  | plain (p : Prim) (e : Expr) (v : Value) (ts : List Value) (n : Nat) :
      ResultCode sc (.plain p) e v ts n [] v ts n
  | call {e : Expr} (p : Prim) (v : Value) (ts : List Value) (n : Nat) :
      e.isCall = true → ResultCode sc (.pointer p) e v ts n [] v ts.tail n
  | spared {e : Expr} (p : Prim) (v : Value) (ts : List Value) (n : Nat) :
      e.isCall = false → (Lower.sparedBy sc e).isSome = true →
        ResultCode sc (.pointer p) e v ts n [] v ts n
  | copy {e : Expr} (p : Prim) (v : Value) (ts : List Value) (n : Nat) :
      e.isCall = false → (Lower.sparedBy sc e).isSome = false →
      ResultCode sc (.pointer p) e v ts n
        [.heapAlloc ⟨n⟩ p "result", .load ⟨n + 1⟩ p v, .store (.reg ⟨n + 1⟩) (.reg ⟨n⟩)] (.reg ⟨n⟩)
          ts (n + 2)

inductive ReturnCode (Γ : Signatures) (ret : Ty) (sc : Scopes Value) :
    Expr → Nat → List Instr → Value → Nat → Prop
  | mk {e : Expr} {n n₁ n₂ n₃ : Nat} {is js ks : List Instr} {t : Typed} {v w : Value}
      {ts us : List Value} :
      ExprCode Γ sc e n is t n₁ ts → CoerceCode t ret n₁ js v n₂ →
        ResultCode sc ret e v ts n₂ ks w us n₃ →
      ReturnCode Γ ret sc e n
        (is ++ js ++ ks ++ settleCode us ++ freeCode (sc.releases (Lower.sparedBy sc e))) w n₃

/-- Where control gets past the code, a branch follows. -/
def JoinsAt (label : String) (rest : Option (List Instr)) : Prop :=
  ∀ k, rest = some k → ∃ k', k = .branch label :: k'

mutual

inductive StmtCode (Γ : Signatures) (ret : Ty) (G : Func) :
    Scopes Value → Stmt → Nat → List Instr → Scopes Value → Nat → Option (List Instr) → Prop
  | declaration {ty : Ty} {xs : List String} {sc sc' : Scopes Value} {n n' : Nat}
      {is k : List Instr} (pos : Nat) :
      DeclareCode ty sc xs n is sc' n' →
      StmtCode Γ ret G sc (.declaration pos ty xs) n
        (.comment ((Stmt.declaration pos ty xs).printAt 0) :: (is ++ k)) sc' n' (some k)
  | assignment {x : String} {e : Expr} {sc : Scopes Value} {n n' : Nat} {is k : List Instr}
      (pos : Nat) :
      AssignCode Γ sc x e n is n' →
      StmtCode Γ ret G sc (.assignment pos x e) n
        (.comment ((Stmt.assignment pos x e).printAt 0) :: (is ++ k)) sc n' (some k)
  | ret {e : Expr} {sc : Scopes Value} {n n' : Nat} {is k : List Instr} {v : Value} (pos : Nat) :
      ReturnCode Γ ret sc e n is v n' →
      StmtCode Γ ret G sc (.ret pos e) n
        (.comment ((Stmt.ret pos e).printAt 0) :: (is ++ .ret v :: k)) sc n' none
  | ifElse {c : Expr} {yes no : Block} {sc : Scopes Value} {n n₁ n₂ n₃ : Nat} {is k : List Instr}
      {v : Value}
      {ly ln la : String} {By Bn Ba : BasicBlock} {ry rn : Option (List Instr)} (pos : Nat) :
      TestCode Γ sc c n is v n₁ →
      G.block? ly = some By → G.block? ln = some Bn → G.block? la = some Ba →
      BlockCode Γ ret G sc yes n₁ By.code n₂ ry → JoinsAt la ry →
      BlockCode Γ ret G sc no n₂ Bn.code n₃ rn → JoinsAt la rn →
      StmtCode Γ ret G sc (.ifElse pos c yes no) n
        (.comment ("if (" ++ c.print ++ ")") :: (is ++ .condBranch v ly ln :: k)) sc n₃
          (some Ba.code)
  | loop {c : Expr} {body : Block} {sc : Scopes Value} {n n₁ n₂ : Nat} {is k k' : List Instr}
      {v : Value}
      {lc lb la : String} {Bc Bb Ba : BasicBlock} {rb : Option (List Instr)} (pos : Nat) :
      G.block? lc = some Bc → G.block? lb = some Bb → G.block? la = some Ba →
      TestCode Γ sc c n is v n₁ → Bc.code = is ++ .condBranch v lb la :: k' →
      BlockCode Γ ret G sc body n₁ Bb.code n₂ rb → JoinsAt lc rb →
      StmtCode Γ ret G sc (.loop pos c body) n
        (.comment ("while (" ++ c.print ++ ")") :: .branch lc :: k) sc n₂ (some Ba.code)
  | block {b : Block} {sc : Scopes Value} {n n' : Nat} {k : List Instr} {r : Option (List Instr)} :
      BlockCode Γ ret G sc b n k n' r → StmtCode Γ ret G sc (.block b) n k sc n' r

inductive BlockCode (Γ : Signatures) (ret : Ty) (G : Func) :
    Scopes Value → Block → Nat → List Instr → Nat → Option (List Instr) → Prop
  | closed {ss : List Stmt} {sc : Scopes Value} {frame : Frame Value} {n n' : Nat} {k : List Instr}
      (pos : Nat) :
      ListCode Γ ret G ([] :: sc) ss n k (frame :: sc) n' none →
        BlockCode Γ ret G sc (.mk pos ss) n k n' none
  | left {ss : List Stmt} {sc : Scopes Value} {frame : Frame Value} {n n' : Nat} {k k' : List Instr}
      (pos : Nat) :
      ListCode Γ ret G ([] :: sc) ss n k (frame :: sc) n' (some (leaveCode frame.handles ++ k')) →
      BlockCode Γ ret G sc (.mk pos ss) n k n' (some k')

inductive ListCode (Γ : Signatures) (ret : Ty) (G : Func) :
    Scopes Value → List Stmt → Nat → List Instr → Scopes Value → Nat → Option (List Instr) → Prop
  | nil (sc : Scopes Value) (n : Nat) (k : List Instr) : ListCode Γ ret G sc [] n k sc n (some k)
  | cons {s : Stmt} {ss : List Stmt} {sc sc' sc'' : Scopes Value} {n n' n'' : Nat}
      {k k' : List Instr}
      {r : Option (List Instr)} :
      StmtCode Γ ret G sc s n k sc' n' (some k') → ListCode Γ ret G sc' ss n' k' sc'' n'' r →
      ListCode Γ ret G sc (s :: ss) n k sc'' n'' r
  | closed {s : Stmt} {sc sc' : Scopes Value} {n n' : Nat} {k : List Instr} (ss : List Stmt) :
      StmtCode Γ ret G sc s n k sc' n' none → ListCode Γ ret G sc (s :: ss) n k sc' n' none

end

/-- The code that binds the parameters from number `i` on. -/
inductive ParamsCode :
    Nat → Scopes Value → List Param → Nat → List Instr → Scopes Value → Nat → Prop
  | nil (i : Nat) (sc : Scopes Value) (n : Nat) : ParamsCode i sc [] n [] sc n
  | plain {frame : Frame Value} {sc sc' : Scopes Value} {pos i n n' : Nat} {x : String} {p : Prim}
      {ps : List Param} {is : List Instr} :
      frame.find? x = none →
      ParamsCode (i + 1) (((x, ⟨.reg ⟨n⟩, .plain p, false⟩) :: frame) :: sc) ps (n + 1) is sc' n' →
      ParamsCode i (frame :: sc) (⟨pos, x, .plain p⟩ :: ps) n
        (.stackAlloc ⟨n⟩ p x :: .store (paramValue i) (.reg ⟨n⟩) :: is) sc' n'
  | pointer {frame : Frame Value} {sc sc' : Scopes Value} {pos i n n' : Nat} {x : String} {p : Prim}
      {ps : List Param} {is : List Instr} :
      frame.find? x = none →
      ParamsCode (i + 1) (((x, ⟨paramValue i, .pointer p, false⟩) :: frame) :: sc) ps n is sc' n' →
      ParamsCode i (frame :: sc) (⟨pos, x, .pointer p⟩ :: ps) n is sc' n'

/-- The last instruction of a body that control may fall off. -/
def Ty.fallInstr : Ty → Instr
  | .plain p => .ret p.zeroValue
  | .pointer _ => .unreachable

/-- The code of a whole definition in a function `G`, from what its first block holds. -/
inductive DefinitionCode (Γ : Signatures) (G : Func) (d : Definition) : Nat → List Instr → Prop
  | mk {n n₁ n₂ : Nat} {is k : List Instr} {sc : Scopes Value} {frame : Frame Value}
      {r : Option (List Instr)} :
      ParamsCode 0 [[]] d.prototype.params n is sc n₁ →
      ListCode Γ d.prototype.ret G sc d.body.statements n₁ k [frame] n₂ r →
      (∀ k', r = some k' → ∃ k'', k' = freeCode frame.handles ++ d.prototype.ret.fallInstr :: k'') →
      DefinitionCode Γ G d n (.comment ("function " ++ d.prototype.print) :: (is ++ k))

/-- Whether an instruction only computes plain data. -/
def Instr.isData : Instr → Bool
  | .load .. | .arith .. | .compare .. | .cast .. => true
  | _ => false

theorem Instr.isTerminator_of_isData {i : Instr} (h : i.isData = true) :
    i.isTerminator = false := by
  cases i <;> simp_all [isData, isTerminator]

theorem BinOp.isData_instr (dst : Reg) (p : Prim) (l r : Value) (op : BinOp) :
    (op.instr dst p l r).isData = true := by
  cases op <;> rfl

theorem PlainCode.data {t : Typed} {n n' : Nat} {is : List Instr} {v : Value} {p : Prim}
    (h : PlainCode t n is v p n') : ∀ i ∈ is, i.isData = true := by
  cases h <;> simp [Instr.isData]

theorem CastCode.data {v w : Value} {p q : Prim} {n n' : Nat} {is : List Instr}
    (h : CastCode v p q n is w n') : ∀ i ∈ is, i.isData = true := by
  cases h <;> simp [Instr.isData]

theorem CoerceCode.data {t : Typed} {ty : Ty} {n n' : Nat} {is : List Instr} {v : Value}
    (h : CoerceCode t ty n is v n') : ∀ i ∈ is, i.isData = true := by
  cases h with
  | plain h h' => exact List.forall_mem_append.2 ⟨h.data, h'.data⟩
  | pointer => simp

theorem CombineCode.data {op : BinOp} {l r t : Typed} {n n' : Nat} {is : List Instr}
    (h : CombineCode op l r n is t n') : ∀ i ∈ is, i.isData = true := by
  cases h with
  | mk h₁ h₂ h₃ h₄ =>
    simp only [List.forall_mem_append, List.forall_mem_singleton]
    exact ⟨⟨⟨⟨h₁.data, h₂.data⟩, h₃.data⟩, h₄.data⟩, BinOp.isData_instr ..⟩

theorem ConditionCode.data {t : Typed} {n n' : Nat} {is : List Instr} {v : Value}
    (h : ConditionCode t n is v n') : ∀ i ∈ is, i.isData = true := by
  cases h <;> simp [Instr.isData]

theorem PlainCode.le {t : Typed} {n n' : Nat} {is : List Instr} {v : Value} {p : Prim}
    (h : PlainCode t n is v p n') : n ≤ n' := by
  cases h <;> omega

theorem CastCode.le {v w : Value} {p q : Prim} {n n' : Nat} {is : List Instr}
    (h : CastCode v p q n is w n') :
    n ≤ n' := by
  cases h <;> omega

theorem CoerceCode.le {t : Typed} {ty : Ty} {n n' : Nat} {is : List Instr} {v : Value}
    (h : CoerceCode t ty n is v n') : n ≤ n' := by
  cases h with
  | plain h h' => exact h.le.trans h'.le
  | pointer => exact le_rfl

theorem CombineCode.le {op : BinOp} {l r t : Typed} {n n' : Nat} {is : List Instr}
    (h : CombineCode op l r n is t n') : n ≤ n' := by
  cases h with
  | mk h₁ h₂ h₃ h₄ => exact Nat.le_succ_of_le (h₁.le.trans (h₂.le.trans (h₃.le.trans h₄.le)))

theorem ConditionCode.le {t : Typed} {n n' : Nat} {is : List Instr} {v : Value}
    (h : ConditionCode t n is v n') :
    n ≤ n' := by
  cases h <;> omega

theorem ContentCode.le {ty : Ty} {v w : Value} {n n' : Nat} {is : List Instr}
    (h : ContentCode ty v n is w n') :
    n ≤ n' := by
  cases h <;> omega

mutual

theorem ExprCode.le {Γ : Signatures} {sc : Scopes Value} :
    ∀ {e n is t n' ts}, ExprCode Γ sc e n is t n' ts → n ≤ n'
  | _, _, _, _, _, _, .int .. => le_rfl
  | _, _, _, _, _, _, .double .. => le_rfl
  | _, _, _, _, _, _, .slot .. => Nat.le_succ _
  | _, _, _, _, _, _, .pointer .. => le_rfl
  | _, _, _, _, _, _, .binary _ hl hr hc => hl.le.trans (hr.le.trans hc.le)
  | _, _, _, _, _, _, .call _ _ h => Nat.le_succ_of_le h.le

theorem ArgsCode.le {Γ : Signatures} {sc : Scopes Value} :
    ∀ {es tys n is vs n' ts}, ArgsCode Γ sc es tys n is vs n' ts → n ≤ n'
  | _, _, _, _, _, _, _, .nil .. => le_rfl
  | _, _, _, _, _, _, _, .cons he hc hs => he.le.trans (hc.le.trans hs.le)

end

theorem DeclareCode.le {ty : Ty} {sc sc' : Scopes Value} {xs : List String} {n n' : Nat}
    {is : List Instr} (h : DeclareCode ty sc xs n is sc' n') : n ≤ n' := by
  induction h with
  | nil => exact le_rfl
  | cons _ _ ih => exact Nat.le_of_succ_le ih

theorem AssignCode.le {Γ : Signatures} {sc : Scopes Value} {x : String} {e : Expr} {n n' : Nat}
    {is : List Instr} (h : AssignCode Γ sc x e n is n') : n ≤ n' := by
  cases h with
  | mk _ he hc hk => exact he.le.trans (hc.le.trans hk.le)

theorem TestCode.le {Γ : Signatures} {sc : Scopes Value} {e : Expr} {n n' : Nat} {is : List Instr}
    {v : Value} (h : TestCode Γ sc e n is v n') : n ≤ n' := by
  cases h with
  | mk he hc => exact he.le.trans hc.le

theorem ReturnCode.le {Γ : Signatures} {ret : Ty} {sc : Scopes Value} {e : Expr} {n n' : Nat}
    {is : List Instr} {v : Value} (h : ReturnCode Γ ret sc e n is v n') : n ≤ n' := by
  cases h with
  | mk he hc hr =>
    refine he.le.trans (hc.le.trans ?_)
    cases hr <;> omega

mutual

theorem StmtCode.le {Γ : Signatures} {ret : Ty} {G : Func} :
    ∀ {sc s n k sc' n' r}, StmtCode Γ ret G sc s n k sc' n' r → n ≤ n'
  | _, _, _, _, _, _, _, .declaration _ h => h.le
  | _, _, _, _, _, _, _, .assignment _ h => h.le
  | _, _, _, _, _, _, _, .ret _ h => h.le
  | _, _, _, _, _, _, _, .ifElse _ ht _ _ _ hyes _ hno _ => ht.le.trans (hyes.le.trans hno.le)
  | _, _, _, _, _, _, _, .loop _ _ _ _ ht _ hbody _ => ht.le.trans hbody.le
  | _, _, _, _, _, _, _, .block h => h.le

theorem BlockCode.le {Γ : Signatures} {ret : Ty} {G : Func} :
    ∀ {sc b n k n' r}, BlockCode Γ ret G sc b n k n' r → n ≤ n'
  | _, _, _, _, _, _, .closed _ h => h.le
  | _, _, _, _, _, _, .left _ h => h.le

theorem ListCode.le {Γ : Signatures} {ret : Ty} {G : Func} :
    ∀ {sc ss n k sc' n' r}, ListCode Γ ret G sc ss n k sc' n' r → n ≤ n'
  | _, _, _, _, _, _, _, .nil .. => le_rfl
  | _, _, _, _, _, _, _, .cons h h' => h.le.trans h'.le
  | _, _, _, _, _, _, _, .closed _ h => h.le

end

mutual

theorem ExprCode.open {Γ : Signatures} {sc : Scopes Value} :
    ∀ {e n is t n' ts}, ExprCode Γ sc e n is t n' ts → ∀ i ∈ is, i.isTerminator = false
  | _, _, _, _, _, _, .int .. => by simp
  | _, _, _, _, _, _, .double .. => by simp
  | _, _, _, _, _, _, .slot .. => by simp [Instr.isTerminator]
  | _, _, _, _, _, _, .pointer .. => by simp
  | _, _, _, _, _, _, .binary _ hl hr hc => by
    simp only [List.forall_mem_append]
    exact ⟨⟨hl.open, hr.open⟩, fun i hi => Instr.isTerminator_of_isData (hc.data i hi)⟩
  | _, _, _, _, _, _, .call _ _ h => by
    simp only [List.forall_mem_append, List.forall_mem_singleton]
    exact ⟨h.open, rfl⟩

theorem ArgsCode.open {Γ : Signatures} {sc : Scopes Value} :
    ∀ {es tys n is vs n' ts}, ArgsCode Γ sc es tys n is vs n' ts → ∀ i ∈ is, i.isTerminator = false
  | _, _, _, _, _, _, _, .nil .. => by simp
  | _, _, _, _, _, _, _, .cons he hc hs => by
    simp only [List.forall_mem_append]
    exact ⟨⟨he.open, fun i hi => Instr.isTerminator_of_isData (hc.data i hi)⟩, hs.open⟩

end

theorem freeCode_open (vs : List Value) : ∀ i ∈ freeCode vs, i.isTerminator = false := by
  simp [freeCode, Instr.isTerminator]

theorem settleCode_open (vs : List Value) : ∀ i ∈ settleCode vs, i.isTerminator = false := by
  unfold settleCode
  rw [List.forall_mem_append]
  refine ⟨?_, freeCode_open vs⟩
  split <;> simp [Instr.isTerminator]

theorem leaveCode_open (vs : List Value) : ∀ i ∈ leaveCode vs, i.isTerminator = false := by
  unfold leaveCode
  rw [List.forall_mem_append]
  refine ⟨?_, freeCode_open vs⟩
  split <;> simp [Instr.isTerminator]

theorem ContentCode.open {ty : Ty} {v w : Value} {n n' : Nat} {is : List Instr}
    (h : ContentCode ty v n is w n') :
    ∀ i ∈ is, i.isTerminator = false := by
  cases h <;> simp [Instr.isTerminator]

theorem DeclareCode.open {ty : Ty} {sc sc' : Scopes Value} {xs : List String} {n n' : Nat}
    {is : List Instr} (h : DeclareCode ty sc xs n is sc' n') :
    ∀ i ∈ is, i.isTerminator = false := by
  induction h with
  | nil => simp
  | cons _ _ ih =>
    rw [List.forall_mem_cons]
    exact ⟨by cases ty <;> rfl, ih⟩

theorem AssignCode.open {Γ : Signatures} {sc : Scopes Value} {x : String} {e : Expr} {n n' : Nat}
    {is : List Instr} (h : AssignCode Γ sc x e n is n') : ∀ i ∈ is, i.isTerminator = false := by
  cases h with
  | mk _ he hc hk =>
    simp only [List.forall_mem_append, List.forall_mem_singleton]
    exact ⟨⟨⟨⟨he.open, fun i hi => Instr.isTerminator_of_isData (hc.data i hi)⟩, hk.open⟩, rfl⟩,
      settleCode_open _⟩

theorem TestCode.open {Γ : Signatures} {sc : Scopes Value} {e : Expr} {n n' : Nat} {is : List Instr}
    {v : Value} (h : TestCode Γ sc e n is v n') : ∀ i ∈ is, i.isTerminator = false := by
  cases h with
  | mk he hc =>
    simp only [List.forall_mem_append]
    exact ⟨⟨he.open, fun i hi => Instr.isTerminator_of_isData (hc.data i hi)⟩, settleCode_open _⟩

theorem DeclareCode.frames {ty : Ty} {sc sc' : Scopes Value} {xs : List String} {n n' : Nat}
    {is : List Instr} (h : DeclareCode ty sc xs n is sc' n') :
    ∀ {f : Frame Value} {fs : Scopes Value}, sc = f :: fs → ∃ f', sc' = f' :: fs := by
  induction h with
  | nil => exact fun h => ⟨_, h⟩
  | cons _ _ ih =>
    rintro f fs ⟨⟩
    exact ih rfl

theorem StmtCode.frames {Γ : Signatures} {ret : Ty} {G : Func} {sc sc' : Scopes Value} {s : Stmt}
    {n n' : Nat} {k : List Instr} {r : Option (List Instr)} (h : StmtCode Γ ret G sc s n k sc' n' r)
    {f : Frame Value} {fs : Scopes Value} (hsc : sc = f :: fs) : ∃ f', sc' = f' :: fs := by
  cases h with
  | declaration _ h => exact h.frames hsc
  | assignment | ret | ifElse | loop | block => exact ⟨f, hsc⟩

theorem ListCode.frames {Γ : Signatures} {ret : Ty} {G : Func} :
    ∀ {sc ss n k sc' n' r}, ListCode Γ ret G sc ss n k sc' n' r →
    ∀ {f : Frame Value} {fs : Scopes Value}, sc = f :: fs → ∃ f', sc' = f' :: fs
  | _, _, _, _, _, _, _, .nil .., f, _, hsc => ⟨f, hsc⟩
  | _, _, _, _, _, _, _, .cons hs hss, _, _, hsc => by
    obtain ⟨f', hf'⟩ := hs.frames hsc
    exact hss.frames hf'
  | _, _, _, _, _, _, _, .closed _ hs, _, _, hsc => hs.frames hsc

section

variable {Γ : Signatures} {sc : Scopes Value} {n n' : Nat} {ts : List Value}

theorem CoerceCode.eq_of_pointer {t : Typed} {p : Prim} {is : List Instr} {v : Value}
    (h : CoerceCode t (.pointer p) n is v n') : t = ⟨v, .pointer p⟩ := by
  cases h with
  | pointer => rfl

theorem sparedBy_eq_some {e : Expr} {i : Nat} {x : String} (h : Lower.sparedBy sc e = some (i, x)) :
    ∃ pos l, e = .var pos x ∧ sc.lookup x = some (i, l) ∧ l.heap = true := by
  cases e with
  | var pos y =>
    simp only [Lower.sparedBy, Expr.var?, Option.bind_some, Option.bind_eq_some_iff, Prod.exists]
      at h
    obtain ⟨k, l, hl, hheap⟩ := h
    split at hheap
    · rename_i hl'
      cases hheap
      exact ⟨pos, l, rfl, hl, hl'⟩
    · cases hheap
  | int | double | binary | call => simp [Lower.sparedBy, Expr.var?] at h

theorem sparedBy_of_isCall {e : Expr} (h : e.isCall = true) : Lower.sparedBy sc e = none := by
  cases e <;> simp_all [Expr.isCall, Lower.sparedBy, Expr.var?]

/-- A variable of pointer type is its storage. -/
theorem ExprCode.storage_eq {x : String} {i pos : Nat} {l : Local Value} {is : List Instr}
    {v : Value} {p : Prim} (h : ExprCode Γ sc (.var pos x) n is ⟨v, .pointer p⟩ n' ts)
    (hl : sc.lookup x = some (i, l)) : l.storage = v := by
  cases h with
  | pointer _ _ hl' =>
    rw [hl] at hl'
    cases hl'
    rfl

/-- The pointer that a call gives back is the last temporary. -/
theorem ExprCode.eq_cons_of_isCall {e : Expr} {is : List Instr} {t : Typed} {p : Prim}
    (h : ExprCode Γ sc e n is t n' ts) (hcall : e.isCall = true) (hty : t.ty = .pointer p) :
    ∃ r, t.value = .reg r ∧ ts = .reg r :: ts.tail := by
  cases h with
  | @call _ _ signature _ k _ _ _ _ _ hargs =>
    cases hret : signature.ret with
    | plain q => simp [hret, ValTy.ofTy] at hty
    | pointer q => exact ⟨_, rfl, by simp [Ty.isPointer]⟩
  | int | double | slot | pointer | binary => simp [Expr.isCall] at hcall

end

end ImpFront

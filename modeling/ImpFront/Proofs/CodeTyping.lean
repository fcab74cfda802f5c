import Mathlib
import ImpFront.Proofs.ControlFlow
import ImpFront.Proofs.Scopes

/-! Types of code. `Instr.Takes` says which types the operands of an instruction have, and
`Instr.resultTy?` which type its register gets. `CodeTyped` checks straight code against a context
of registers that are defined where it begins, and counts the registers that it defines; each shape
of lowered code flows from any context in which its scopes are typed. -/

namespace ImpFront

def Cast.source : Cast → ValTy
  | .intToDouble => .plain .int
  | .doubleToInt => .plain .double
  | .boolToInt => .bool

def Cast.target : Cast → ValTy
  | .intToDouble => .plain .double
  | .doubleToInt => .plain .int
  | .boolToInt => .plain .int

/-- The types of an operand, where `R` types the registers. Parameters are operands under their
32-bit numbers. -/
def Value.HasTy (params : List Ty) (R : Reg → ValTy → Prop) : Value → ValTy → Prop
  | .reg r, t => R r t
  | .int _, t => t = .plain .int
  | .double _, t => t = .plain .double
  | .arg k, t => ∃ i ty, params[i]? = some ty ∧ paramValue i = .arg k ∧ t = .ofTy ty

namespace Instr

def operands : Instr → List Value
  | .heapFree v | .load _ _ v | .cast _ _ v | .condBranch v _ _ | .ret v => [v]
  | .store v w | .arith _ _ _ v w | .compare _ _ _ v w => [v, w]
  | .call _ _ args => args
  | .comment _ | .stackAlloc .. | .heapAlloc .. | .branch _ | .unreachable => []

/-- The type of the register that the instruction defines. -/
def resultTy? (known : String → Option Signature) : Instr → Option ValTy
  | .stackAlloc _ p _ | .heapAlloc _ p _ => some (.pointer p)
  | .load _ p _ | .arith _ _ p _ _ => some (.plain p)
  | .compare .. => some .bool
  | .cast _ kind _ => some kind.target
  | .call _ callee _ => (known callee).map fun sig => .ofTy sig.ret
  | _ => none

/-- The operands have the types that the instruction takes; `ret` is what its function returns. -/
def Takes (known : String → Option Signature) (ret : Ty) (H : Value → ValTy → Prop) : Instr → Prop
  | .comment _ | .stackAlloc .. | .heapAlloc .. | .branch _ | .unreachable => True
  | .heapFree v => ∃ p, H v (.pointer p)
  | .load _ p v => H v (.pointer p)
  | .store w v => ∃ p, H v (.pointer p) ∧ H w (.plain p)
  | .arith _ _ p v w | .compare _ _ p v w => H v (.plain p) ∧ H w (.plain p)
  | .cast _ kind v => H v kind.source
  | .call _ callee args =>
    ∃ sig, known callee = some sig ∧ List.Forall₂ (fun v ty => H v (.ofTy ty)) args sig.params
  | .condBranch v _ _ => H v .bool
  | .ret v => H v (.ofTy ret)

/-- Each operand has some type. -/
theorem Takes.operand {known : String → Option Signature} {ret : Ty} {H : Value → ValTy → Prop}
    {i : Instr} (h : i.Takes known ret H) : ∀ v ∈ i.operands, ∃ t, H v t := by
  cases i with
  | comment | stackAlloc | heapAlloc | branch | unreachable => simp [operands]
  | heapFree v =>
    obtain ⟨p, hp⟩ := h
    exact List.forall_mem_singleton.2 ⟨_, hp⟩
  | load _ _ v | cast _ _ v | condBranch v _ _ | ret v => exact List.forall_mem_singleton.2 ⟨_, h⟩
  | store w v =>
    obtain ⟨p, hv, hw⟩ := h
    exact List.forall_mem_cons.2 ⟨⟨_, hw⟩, List.forall_mem_singleton.2 ⟨_, hv⟩⟩
  | arith _ _ _ v w | compare _ _ _ v w =>
    exact List.forall_mem_cons.2 ⟨⟨_, h.1⟩, List.forall_mem_singleton.2 ⟨_, h.2⟩⟩
  | call _ _ args =>
    obtain ⟨sig, -, hargs⟩ := h
    show ∀ v ∈ args, ∃ t, H v t
    generalize sig.params = tys at hargs
    induction hargs with
    | nil => simp
    | cons hv _ ih => exact List.forall_mem_cons.2 ⟨⟨_, hv⟩, ih⟩

theorem Takes.imp {known known' : String → Option Signature} {ret : Ty}
    {H H' : Value → ValTy → Prop} {i : Instr}
    (h : i.Takes known ret H) (hH : ∀ v t, H v t → H' v t) (hcall : ∀ dst callee args sig,
      i = .call dst callee args → known callee = some sig → known' callee = some sig) :
    i.Takes known' ret H' := by
  cases i with
  | comment | stackAlloc | heapAlloc | branch | unreachable => trivial
  | heapFree v =>
    obtain ⟨p, hp⟩ := h
    exact ⟨p, hH _ _ hp⟩
  | load | cast | condBranch | ret => exact hH _ _ h
  | store w v =>
    obtain ⟨p, hv, hw⟩ := h
    exact ⟨p, hH _ _ hv, hH _ _ hw⟩
  | arith | compare => exact ⟨hH _ _ h.1, hH _ _ h.2⟩
  | call dst callee args =>
    obtain ⟨sig, hknown, hargs⟩ := h
    exact ⟨sig, hcall dst callee args sig rfl hknown, hargs.imp fun v ty hv => hH v _ hv⟩

end Instr

/-- The registers that are defined at a place, with their types. -/
abbrev Context := List (Reg × ValTy)

/-- The type of an operand in a context. -/
def Context.Has (params : List Ty) (c : Context) (v : Value) (t : ValTy) : Prop :=
  v.HasTy params (fun r t => (r, t) ∈ c) t

theorem Context.Has.mono {params : List Ty} {c d : Context} {v : Value} {t : ValTy}
    (h : Context.Has params c v t) (hcd : c ⊆ d) : Context.Has params d v t := by
  cases v with
  | reg r => exact hcd h
  | int | double | arg => exact h

/-- Well-typed code from a context and a register number to those behind it. A branch needs its
target to be entered in a context that is part of the current one. -/
inductive CodeTyped (known : String → Option Signature) (sig : Signature)
    (A : String → Context → Prop) :
    Context → Nat → List Instr → Context → Nat → Prop
  | nil (c : Context) (n : Nat) : CodeTyped known sig A c n [] c n
  | silent {c c' : Context} {n n' : Nat} {i : Instr} {is : List Instr} :
      i.dst? = none → i.Takes known sig.ret (Context.Has sig.params c) →
        (∀ l ∈ i.targets, ∃ d, A l d ∧ d ⊆ c) →
      CodeTyped known sig A c n is c' n' → CodeTyped known sig A c n (i :: is) c' n'
  | define {c c' : Context} {n n' : Nat} {i : Instr} {is : List Instr} {t : ValTy} :
      i.dst? = some ⟨n⟩ → i.resultTy? known = some t →
        i.Takes known sig.ret (Context.Has sig.params c) →
      CodeTyped known sig A ((⟨n⟩, t) :: c) (n + 1) is c' n' →
        CodeTyped known sig A c n (i :: is) c' n'

/-- The code flows to a context with a property. -/
def Flows (known : String → Option Signature) (sig : Signature) (A : String → Context → Prop)
    (c : Context) (n : Nat) (is : List Instr) (n' : Nat) (Q : Context → Prop) : Prop :=
  ∃ c', CodeTyped known sig A c n is c' n' ∧ Q c'

section

variable {known : String → Option Signature} {sig : Signature} {A A' : String → Context → Prop}
  {c c' c'' : Context} {n n' n'' : Nat} {is js : List Instr} {i : Instr} {t : ValTy}
  {Q Q' : Context → Prop}

namespace CodeTyped

theorem append (h : CodeTyped known sig A c n is c' n')
    (h' : CodeTyped known sig A c' n' js c'' n'') :
    CodeTyped known sig A c n (is ++ js) c'' n'' := by
  induction h with
  | nil => exact h'
  | silent hdst htakes htargets _ ih => exact .silent hdst htakes htargets (ih h')
  | define hdst hty htakes _ ih => exact .define hdst hty htakes (ih h')

theorem subset (h : CodeTyped known sig A c n is c' n') : c ⊆ c' := by
  induction h with
  | nil => exact List.Subset.refl _
  | silent _ _ _ _ ih => exact ih
  | define _ _ _ _ ih => exact fun e he => ih (List.mem_cons_of_mem _ he)

theorem mono (h : CodeTyped known sig A c n is c' n') (hA : ∀ l d, A l d → A' l d) :
    CodeTyped known sig A' c n is c' n' := by
  induction h with
  | nil => exact .nil _ _
  | silent hdst htakes htargets _ ih =>
    refine .silent hdst htakes (fun l hl => ?_) ih
    obtain ⟨d, hd, hdc⟩ := htargets l hl
    exact ⟨d, hA l d hd, hdc⟩
  | define hdst hty htakes _ ih => exact .define hdst hty htakes ih

/-- The registers that the code defines are numbered in order. -/
theorem dsts (h : CodeTyped known sig A c n is c' n') :
    ∃ k, n' = n + k ∧ is.filterMap Instr.dst? = (List.range' n k).map Handle.mk := by
  induction h with
  | nil => exact ⟨0, rfl, rfl⟩
  | silent hdst _ _ _ ih =>
    obtain ⟨k, hk, his⟩ := ih
    exact ⟨k, hk, by rw [List.filterMap_cons_none hdst, his]⟩
  | define hdst _ _ _ ih =>
    obtain ⟨k, hk, his⟩ := ih
    refine ⟨k + 1, by omega, ?_⟩
    rw [List.filterMap_cons_some hdst, his]
    rfl

/-- What is defined behind the code was defined before it or is defined by it. -/
theorem defined (h : CodeTyped known sig A c n is c' n') {e : Reg × ValTy} (he : e ∈ c') :
    e ∈ c ∨ ∃ i ∈ is, i.dst? = some e.1 ∧ i.resultTy? known = some e.2 := by
  induction h with
  | nil => exact .inl he
  | silent _ _ _ _ ih =>
    rcases ih he with he | ⟨i, hi, h⟩
    · exact .inl he
    · exact .inr ⟨i, List.mem_cons_of_mem _ hi, h⟩
  | define hdst hty _ _ ih =>
    rcases ih he with he | ⟨i, hi, h⟩
    · rcases List.mem_cons.1 he with rfl | he
      · exact .inr ⟨_, List.mem_cons_self, hdst, hty⟩
      · exact .inl he
    · exact .inr ⟨i, List.mem_cons_of_mem _ hi, h⟩

end CodeTyped

namespace Flows

theorem nil (h : Q c) : Flows known sig A c n [] n Q := ⟨c, .nil c n, h⟩

theorem silent (hdst : i.dst? = none) (htargets : i.targets = [])
    (htakes : i.Takes known sig.ret (Context.Has sig.params c)) (h : Q c) :
    Flows known sig A c n [i] n Q :=
  ⟨c, .silent hdst htakes (by simp [htargets]) (.nil c n), h⟩

theorem define (hdst : i.dst? = some ⟨n⟩) (hty : i.resultTy? known = some t)
    (htakes : i.Takes known sig.ret (Context.Has sig.params c)) (h : Q ((⟨n⟩, t) :: c)) :
    Flows known sig A c n [i] (n + 1) Q :=
  ⟨_, .define hdst hty htakes (.nil _ _), h⟩

theorem bind (h : Flows known sig A c n is n' Q)
    (h' : ∀ c', c ⊆ c' → Q c' → Flows known sig A c' n' js n'' Q') :
    Flows known sig A c n (is ++ js) n'' Q' := by
  obtain ⟨c', hflow, hQ⟩ := h
  obtain ⟨c'', hflow', hQ'⟩ := h' c' hflow.subset hQ
  exact ⟨c'', hflow.append hflow', hQ'⟩

theorem imp (h : Flows known sig A c n is n' Q) (hQ : ∀ c', c ⊆ c' → Q c' → Q' c') :
    Flows known sig A c n is n' Q' := by
  obtain ⟨c', hflow, hc'⟩ := h
  exact ⟨c', hflow, hQ c' hflow.subset hc'⟩

end Flows

theorem Context.has_new (params : List Ty) (c : Context) (r : Reg) (t : ValTy) :
    Context.Has params ((r, t) :: c) (.reg r) t := List.mem_cons_self

theorem PlainCode.flows {t : Typed} {v : Value} {p : Prim} (h : PlainCode t n is v p n')
    (ht : Context.Has sig.params c t.value t.ty) :
    Flows known sig A c n is n' fun c => Context.Has sig.params c v (.plain p) := by
  cases h with
  | pointer v p => exact .define rfl rfl ht (Context.has_new ..)
  | bool v => exact .define rfl rfl ht (Context.has_new ..)
  | plain v p => exact .nil ht

theorem CastCode.flows {v w : Value} {p q : Prim} (h : CastCode v p q n is w n')
    (hv : Context.Has sig.params c v (.plain p)) :
    Flows known sig A c n is n' fun c => Context.Has sig.params c w (.plain q) := by
  cases h with
  | same => exact .nil hv
  | widen | narrow => exact .define rfl rfl hv (Context.has_new ..)

theorem CoerceCode.flows {t : Typed} {ty : Ty} {v : Value} (h : CoerceCode t ty n is v n')
    (ht : Context.Has sig.params c t.value t.ty) :
    Flows known sig A c n is n' fun c => Context.Has sig.params c v (.ofTy ty) := by
  cases h with
  | plain h h' => exact (h.flows ht).bind fun c' _ hv => h'.flows hv
  | pointer => exact .nil ht

theorem CombineCode.flows {op : BinOp} {l r t : Typed} (h : CombineCode op l r n is t n')
    (hl : Context.Has sig.params c l.value l.ty) (hr : Context.Has sig.params c r.value r.ty) :
    Flows known sig A c n is n' fun c => Context.Has sig.params c t.value t.ty := by
  cases h with
  | mk h₁ h₂ h₃ h₄ =>
    have hplain : Flows known sig A c _ _ _ _ := (h₁.flows hl).bind fun c₁ hc₁ hv₁ =>
      (h₂.flows (hr.mono hc₁)).imp fun c₂ hc₂ hv₂ => And.intro (hv₁.mono hc₂) hv₂
    have hleft : Flows known sig A c _ _ _ _ := hplain.bind fun c₂ _ hv =>
      (h₃.flows hv.1).imp fun c₃ hc₃ hv₃ => And.intro hv₃ (hv.2.mono hc₃)
    have hboth : Flows known sig A c _ _ _ _ := hleft.bind fun c₃ _ hv =>
      (h₄.flows hv.2).imp fun c₄ hc₄ hv₄ => And.intro (hv.1.mono hc₄) hv₄
    refine hboth.bind fun c₄ _ hv => ?_
    cases op with
    | add | sub | mul => exact .define rfl rfl hv (Context.has_new ..)
    | less => exact .define rfl rfl hv (Context.has_new ..)

theorem Prim.has_zeroValue (params : List Ty) (c : Context) (p : Prim) :
    Context.Has params c p.zeroValue (.plain p) := by
  cases p <;> rfl

theorem ConditionCode.flows {t : Typed} {v : Value} (h : ConditionCode t n is v n')
    (ht : Context.Has sig.params c t.value t.ty) :
    Flows known sig A c n is n' fun c => Context.Has sig.params c v .bool := by
  cases h with
  | bool => exact .nil ht
  | plain v p => exact .define rfl rfl ⟨ht, Prim.has_zeroValue ..⟩ (Context.has_new ..)
  | pointer v p =>
    have hload : Flows known sig A c n [.load ⟨n⟩ p v] (n + 1) fun c =>
        Context.Has sig.params c (.reg ⟨n⟩) (.plain p) :=
      .define rfl rfl ht (Context.has_new ..)
    refine hload.bind fun c' _ hv => ?_
    exact .define rfl rfl ⟨hv, Prim.has_zeroValue ..⟩ (Context.has_new ..)

/-- Each declared name is stored behind a pointer to its data. -/
def Scopes.Typed (params : List Ty) (c : Context) (sc : Scopes Value) : Prop :=
  ∀ d ∈ sc.flatten, Context.Has params c d.2.storage (.pointer d.2.ty.prim)

theorem Scopes.Typed.mono {params : List Ty} {sc : Scopes Value} (h : sc.Typed params c)
    (hc : c ⊆ c') :
    sc.Typed params c' := fun d hd => (h d hd).mono hc

theorem Scopes.Typed.lookup {params : List Ty} {sc : Scopes Value} {x : String} {i : Nat}
    {l : Local Value} (h : sc.Typed params c) (hl : sc.lookup x = some (i, l)) :
    Context.Has params c l.storage (.pointer l.ty.prim) :=
  h (x, l) (Scopes.mem_of_lookup hl)

/-- The values are pointers. -/
def Context.Pointers (params : List Ty) (c : Context) (vs : List Value) : Prop :=
  ∀ v ∈ vs, ∃ p, Context.Has params c v (.pointer p)

theorem Context.Pointers.mono {params : List Ty} {vs : List Value}
    (h : Context.Pointers params c vs) (hc : c ⊆ c') :
    Context.Pointers params c' vs := fun v hv => (h v hv).imp fun _ hp => hp.mono hc

theorem Context.Pointers.append {params : List Ty} {vs ws : List Value}
    (h : Context.Pointers params c vs) (h' : Context.Pointers params c ws) :
    Context.Pointers params c (vs ++ ws) := List.forall_mem_append.2 ⟨h, h'⟩

mutual

theorem ExprCode.flows {Γ : Signatures} {sc : Scopes Value} {ts : List Value} {e : Expr}
    {n n' : Nat} {is : List Instr} {t : Typed} {c : Context} (h : ExprCode Γ sc e n is t n' ts)
    (hsc : sc.Typed sig.params c) :
    Flows Γ.find? sig A c n is n' fun c =>
      Context.Has sig.params c t.value t.ty ∧ Context.Pointers sig.params c ts := by
  cases h with
  | int | double => exact .nil ⟨rfl, by simp [Context.Pointers]⟩
  | slot pos n hl =>
    exact .define rfl rfl (hsc.lookup hl) ⟨Context.has_new .., by simp [Context.Pointers]⟩
  | pointer pos n hl => exact .nil ⟨hsc.lookup hl, by simp [Context.Pointers]⟩
  | binary pos hl hr hc =>
    have hargs :=
      (hl.flows hsc).bind fun c₁ hc₁ hv₁ => (hr.flows (hsc.mono hc₁)).imp fun c₂ hc₂ hv₂ =>
      And.intro (hv₁.1.mono hc₂) (And.intro hv₂.1 (hv₂.2.append (hv₁.2.mono hc₂)))
    exact hargs.bind fun c₂ _ hv => (hc.flows hv.1 hv.2.1).imp fun c₃ hc₃ ht =>
      ⟨ht, hv.2.2.mono hc₃⟩
  | @call f args signature _ m js vs us pos hfind h =>
    refine (h.flows hsc).bind fun c₁ _ hv => ?_
    refine .define (t := .ofTy signature.ret) rfl ?_ ⟨signature, hfind, hv.1⟩ ⟨Context.has_new ..,
      ?_⟩
    · simp [Instr.resultTy?, hfind]
    · refine Context.Pointers.append ?_ (hv.2.mono (List.subset_cons_self _ _))
      cases signature.ret with
      | plain p => simp [Ty.isPointer, Context.Pointers]
      | pointer p => exact List.forall_mem_singleton.2 ⟨p, Context.has_new ..⟩

theorem ArgsCode.flows {Γ : Signatures} {sc : Scopes Value} {ts : List Value} {es : List Expr}
    {tys : List Ty} {n n' : Nat} {is : List Instr} {vs : List Value} {c : Context}
    (h : ArgsCode Γ sc es tys n is vs n' ts) (hsc : sc.Typed sig.params c) :
    Flows Γ.find? sig A c n is n' fun c =>
      List.Forall₂ (fun v ty => Context.Has sig.params c v (.ofTy ty)) vs tys ∧
      Context.Pointers sig.params c ts := by
  cases h with
  | nil => exact .nil ⟨.nil, by simp [Context.Pointers]⟩
  | cons he hc hs =>
    have harg := (he.flows hsc).bind fun c₁ hc₁ hv₁ => (hc.flows hv₁.1).imp fun c₂ hc₂ hv₂ =>
      And.intro hv₂ (And.intro (hv₁.2.mono hc₂) (hsc.mono (List.Subset.trans hc₁ hc₂)))
    exact harg.bind fun c₂ _ hv => (hs.flows hv.2.2).imp fun c₃ hc₃ hvs =>
      ⟨.cons (hv.1.mono hc₃) hvs.1, hvs.2.append (hv.2.1.mono hc₃)⟩

end

theorem flows_freeCode {vs : List Value} (h : Context.Pointers sig.params c vs) (hQ : Q c) :
    Flows known sig A c n (freeCode vs) n Q := by
  induction vs with
  | nil => exact .nil hQ
  | cons v vs ih =>
    obtain ⟨hv, hvs⟩ := List.forall_mem_cons.1 h
    obtain ⟨c', hflow, hQ'⟩ := ih hvs
    exact ⟨c', .silent rfl hv (by simp [Instr.targets]) hflow, hQ'⟩

theorem flows_comment (text : String) (hQ : Q c) : Flows known sig A c n [.comment text] n Q :=
  .silent rfl rfl trivial hQ

theorem flows_settleCode {vs : List Value} (h : Context.Pointers sig.params c vs) (hQ : Q c) :
    Flows known sig A c n (settleCode vs) n Q := by
  unfold settleCode
  refine Flows.bind (Q := fun c' => c' = c) ?_ fun c' _ hc => hc ▸ flows_freeCode h hQ
  split
  · exact .nil rfl
  · exact flows_comment _ rfl

theorem flows_leaveCode {vs : List Value} (h : Context.Pointers sig.params c vs) (hQ : Q c) :
    Flows known sig A c n (leaveCode vs) n Q := by
  unfold leaveCode
  refine Flows.bind (Q := fun c' => c' = c) ?_ fun c' _ hc => hc ▸ flows_freeCode h hQ
  split
  · exact .nil rfl
  · exact flows_comment _ rfl

theorem Scopes.Typed.handles {params : List Ty} {frame : Frame Value} {sc : Scopes Value}
    (h : Scopes.Typed params c (frame :: sc)) : Context.Pointers params c frame.handles := by
  intro v hv
  simp only [Frame.handles, List.mem_map, List.mem_filter] at hv
  obtain ⟨d, ⟨hd, -⟩, rfl⟩ := hv
  exact ⟨_, h d (List.mem_append_left _ hd)⟩

theorem Scopes.Typed.releases {params : List Ty} {sc : Scopes Value} (h : sc.Typed params c)
    (spared : Option (Nat × String)) : Context.Pointers params c (sc.releases spared) := by
  intro v hv
  obtain ⟨d, hd, -, rfl⟩ :=
    Scopes.mem_releases_none.1 ((Scopes.releases_sublist spared sc).subset hv)
  exact ⟨_, h d hd⟩

theorem Scopes.Typed.declare {params : List Ty} {frame : Frame Value} {sc : Scopes Value}
    {x : String} {l : Local Value} (h : Scopes.Typed params c (frame :: sc))
    (hl : Context.Has params c l.storage (.pointer l.ty.prim)) :
    Scopes.Typed params c (((x, l) :: frame) :: sc) :=
  List.forall_mem_cons.2 ⟨hl, h⟩

theorem DeclareCode.flows {ty : Ty} {sc sc' : Scopes Value} {xs : List String}
    (h : DeclareCode ty sc xs n is sc' n') (hsc : sc.Typed sig.params c) :
    Flows known sig A c n is n' (Scopes.Typed sig.params · sc') := by
  induction h generalizing c with
  | nil => exact .nil hsc
  | @cons frame sc sc' x xs n n' is hx _ ih =>
    have halloc : Flows known sig A c n [ty.allocInstr ⟨n⟩ x] (n + 1)
        (Scopes.Typed sig.params · (((x, ⟨.reg ⟨n⟩, ty, ty.isPointer⟩) :: frame) :: sc)) := by
      have htyped : Scopes.Typed sig.params ((⟨n⟩, .pointer ty.prim) :: c)
          (((x, ⟨.reg ⟨n⟩, ty, ty.isPointer⟩) :: frame) :: sc) :=
        (hsc.mono (List.subset_cons_self _ _)).declare (Context.has_new ..)
      cases ty <;> exact .define rfl rfl trivial htyped
    exact halloc.bind fun c' _ hsc' => ih hsc'

theorem ContentCode.flows {ty : Ty} {v w : Value} (h : ContentCode ty v n is w n')
    (hv : Context.Has sig.params c v (.ofTy ty)) :
    Flows known sig A c n is n' fun c => Context.Has sig.params c w (.plain ty.prim) := by
  cases h with
  | plain => exact .nil hv
  | pointer => exact .define rfl rfl hv (Context.has_new ..)

theorem AssignCode.flows {Γ : Signatures} {sc : Scopes Value} {x : String} {e : Expr}
    (h : AssignCode Γ sc x e n is n') (hsc : sc.Typed sig.params c) :
    Flows Γ.find? sig A c n is n' (Scopes.Typed sig.params · sc) := by
  cases h with
  | mk hl he hc hk =>
    have hvalue :=
      ((he.flows (A := A) hsc).bind fun c₁ _ hv₁ => (hc.flows hv₁.1).imp fun c₂ hc₂ hv₂ =>
      And.intro hv₂ (hv₁.2.mono hc₂)).bind fun c₂ _ hv₂ => (hk.flows hv₂.1).imp fun c₃ hc₃ hv₃ =>
        And.intro hv₃ (hv₂.2.mono hc₃)
    have hstore := hvalue.bind fun c₃ hc₃ hv => Flows.silent (n := _) (i := .store _ _) rfl rfl
      ⟨_, (hsc.lookup hl).mono hc₃, hv.1⟩ (And.intro hc₃ hv.2)
    exact hstore.bind fun c₄ _ hv => flows_settleCode hv.2 (hsc.mono hv.1)

theorem TestCode.flows {Γ : Signatures} {sc : Scopes Value} {e : Expr} {v : Value}
    (h : TestCode Γ sc e n is v n') (hsc : sc.Typed sig.params c) :
    Flows Γ.find? sig A c n is n' fun c => Context.Has sig.params c v .bool ∧
    sc.Typed sig.params c := by
  cases h with
  | mk he hc =>
    have hcond :=
      (he.flows (A := A) hsc).bind fun c₁ hc₁ hv₁ => (hc.flows hv₁.1).imp fun c₂ hc₂ hv₂ =>
      And.intro (And.intro hv₂ (hsc.mono (List.Subset.trans hc₁ hc₂))) (hv₁.2.mono hc₂)
    exact hcond.bind fun c₂ _ hv => flows_settleCode hv.2 hv.1

theorem ResultCode.flows {sc : Scopes Value} {ret : Ty} {e : Expr} {v w : Value}
    {ts us : List Value} (h : ResultCode sc ret e v ts n is w us n')
    (hv : Context.Has sig.params c v (.ofTy ret)) (hts : Context.Pointers sig.params c ts) :
    Flows known sig A c n is n' fun c => Context.Has sig.params c w (.ofTy ret) ∧
    Context.Pointers sig.params c us := by
  cases h with
  | plain | spared => exact .nil ⟨hv, hts⟩
  | call => exact .nil ⟨hv, fun v hv => hts v (List.mem_of_mem_tail hv)⟩
  | copy p v ts n =>
    have halloc : Flows known sig A c n [.heapAlloc ⟨n⟩ p "result"] (n + 1) fun c' =>
        c ⊆ c' ∧ Context.Has sig.params c' (.reg ⟨n⟩) (.pointer p) :=
      .define rfl rfl trivial ⟨List.subset_cons_self _ _, Context.has_new ..⟩
    refine halloc.bind fun c₁ _ h₁ => ?_
    have hload : Flows known sig A c₁ (n + 1) [.load ⟨n + 1⟩ p v] (n + 2) fun c' =>
        c₁ ⊆ c' ∧ Context.Has sig.params c' (.reg ⟨n + 1⟩) (.plain p) :=
      .define rfl rfl (hv.mono h₁.1) ⟨List.subset_cons_self _ _, Context.has_new ..⟩
    refine hload.bind fun c₂ _ h₂ => .silent rfl rfl ⟨p, h₁.2.mono h₂.1, h₂.2⟩ ⟨h₁.2.mono h₂.1, ?_⟩
    exact hts.mono (List.Subset.trans h₁.1 h₂.1)

theorem ReturnCode.flows {Γ : Signatures} {sc : Scopes Value} {ret : Ty} {e : Expr} {v : Value}
    (h : ReturnCode Γ ret sc e n is v n') (hsc : sc.Typed sig.params c) :
    Flows Γ.find? sig A c n is n' fun c => Context.Has sig.params c v (.ofTy ret) := by
  cases h with
  | mk he hc hr =>
    have hvalue :=
      ((he.flows (A := A) hsc).bind fun c₁ _ hv₁ => (hc.flows hv₁.1).imp fun c₂ hc₂ hv₂ =>
      And.intro hv₂ (hv₁.2.mono hc₂)).bind fun c₂ _ hv₂ => hr.flows hv₂.1 hv₂.2
    have hsettled := hvalue.bind fun c₃ hc₃ hv =>
      flows_settleCode (Q := fun c' => Context.Has sig.params c' v (.ofTy ret) ∧ c ⊆ c') hv.2 ⟨hv.1,
        hc₃⟩
    exact hsettled.bind fun c₄ _ hv => flows_freeCode ((hsc.mono hv.2).releases _) hv.1

theorem ParamsCode.flows {i : Nat} {sc sc' : Scopes Value} {ps : List Param}
    (h : ParamsCode i sc ps n is sc' n')
    (hps : ∀ j p, ps[j]? = some p → sig.params[i + j]? = some p.ty) (hsc : sc.Typed sig.params c) :
    Flows known sig A c n is n' (Scopes.Typed sig.params · sc') := by
  induction h generalizing c with
  | nil => exact .nil hsc
  | @plain frame sc sc' pos i n n' x p ps is hx _ ih =>
    have hnext : ∀ j q, ps[j]? = some q → sig.params[i + 1 + j]? = some q.ty := fun j q hq => by
      rw [Nat.add_right_comm, Nat.add_assoc]
      exact hps (j + 1) q (by simpa using hq)
    have halloc : Flows known sig A c n [.stackAlloc ⟨n⟩ p x] (n + 1) fun c' =>
        Context.Has sig.params c' (.reg ⟨n⟩) (.pointer p) ∧ c ⊆ c' :=
      .define rfl rfl trivial ⟨Context.has_new .., List.subset_cons_self _ _⟩
    refine halloc.bind fun c₁ _ h₁ => ?_
    have hstore : Flows known sig A c₁ (n + 1) [.store (paramValue i) (.reg ⟨n⟩)] (n + 1)
        (Scopes.Typed sig.params · (((x, ⟨.reg ⟨n⟩, .plain p, false⟩) :: frame) :: sc)) := by
      refine .silent rfl rfl ⟨p, h₁.1, i, .plain p, ?_, rfl, rfl⟩ ((hsc.mono h₁.2).declare h₁.1)
      simpa using hps 0 _ rfl
    exact hstore.bind fun c₂ _ h₂ => ih hnext h₂
  | @pointer frame sc sc' pos i n n' x p ps is hx _ ih =>
    have hnext : ∀ j q, ps[j]? = some q → sig.params[i + 1 + j]? = some q.ty := fun j q hq => by
      rw [Nat.add_right_comm, Nat.add_assoc]
      exact hps (j + 1) q (by simpa using hq)
    refine ih hnext (hsc.declare ⟨i, .pointer p, ?_, rfl, rfl⟩)
    simpa using hps 0 _ rfl

end

end ImpFront

import Mathlib
import ImpFront.Proofs.Comments
import ImpFront.Proofs.Discipline
import ImpFront.Proofs.WellTyped

/-! The rules for the heap where comments are not recorded. A walk through code without comments is
a walk through the full code that passes the comments by, and it holds the same cells. The return of
a local is known there by the read of its cell alone: each register is defined once, so a cell that
the function itself allocated did not come from a call, and nothing else reads one right before a
plain return. -/

namespace ImpFront

variable {F : Func} {m : Module} {done todo : List Instr} {i : Instr}

theorem Func.block?_withoutComments (F : Func) (l : String) :
    F.withoutComments.block? l = (F.block? l).map BasicBlock.withoutComments := by
  rw [block?, withoutComments, List.find?_map]
  rfl

theorem Module.function?_withoutComments (m : Module) (name : String) :
    m.withoutComments.function? name = (m.function? name).map Func.withoutComments := by
  rw [function?, withoutComments, List.find?_map]
  rfl

theorem Module.acquired?_withoutComments (m : Module) (i : Instr) :
    m.withoutComments.acquired? i = m.acquired? i := by
  cases i with
  | call =>
    rw [acquired?, acquired?, function?_withoutComments, Option.any_map]
    rfl
  | _ => rfl

theorem Holdings.after_withoutComments (m : Module) (done : List Instr) :
    after m.withoutComments done = after m done := by
  have hstep : step m.withoutComments = step m := by
    funext h i
    simp only [step, Module.acquired?_withoutComments]
  rw [after, hstep, after]

theorem Module.readsLocal_withoutComments (m : Module) (done : List Instr) (r : Reg) :
    m.withoutComments.ReadsLocal done r ↔ m.ReadsLocal done r := by
  simp only [ReadsLocal, Holdings.after_withoutComments]

/-- Where control goes in the code without comments, it goes in the full code. -/
theorem Func.Next.of_withoutComments {rest : List Instr}
    (h : F.withoutComments.Next i (uncommented todo) rest) :
    ∃ todo', F.Next i todo todo' ∧ uncommented todo' = rest := by
  have hblock : ∀ {l : String} {B : BasicBlock}, F.withoutComments.block? l = some B →
      ∃ B', F.block? l = some B' ∧ uncommented B'.code = B.code := fun hB => by
    rw [Func.block?_withoutComments] at hB
    obtain ⟨B', hB', rfl⟩ := Option.map_eq_some_iff.1 hB
    exact ⟨B', hB', rfl⟩
  cases h with
  | step hi => exact ⟨todo, .step hi, rfl⟩
  | branch hB =>
    obtain ⟨B', hB', hcode⟩ := hblock hB
    exact ⟨_, .branch hB', hcode⟩
  | yes hB =>
    obtain ⟨B', hB', hcode⟩ := hblock hB
    exact ⟨_, .yes hB', hcode⟩
  | no hB =>
    obtain ⟨B', hB', hcode⟩ := hblock hB
    exact ⟨_, .no hB', hcode⟩

namespace Func.Walk

theorem mem_code (h : F.Walk done todo) : (∀ j ∈ done, j ∈ F.code) ∧ ∀ j ∈ todo, j ∈ F.code := by
  induction h with
  | entry hB =>
    exact ⟨by simp, fun j hj => List.mem_flatMap.2 ⟨_, List.mem_of_mem_head? hB, hj⟩⟩
  | next _ hnext ih =>
    obtain ⟨hdone, htodo⟩ := ih
    obtain ⟨hi, hrest⟩ := List.forall_mem_cons.1 htodo
    refine ⟨List.forall_mem_append.2 ⟨hdone, by simpa using hi⟩, ?_⟩
    cases hnext with
    | step => exact hrest
    | branch hB | yes hB | no hB => exact mem_code_of_block? hB

/-- Control passes by the comments before an instruction. -/
theorem pass {is : List Instr} (his : ∀ c ∈ is, c.isComment = true)
    (h : F.Walk done (is ++ todo)) : F.Walk (done ++ is) todo := by
  induction is generalizing done with
  | nil => simpa using h
  | cons c is ih =>
    obtain ⟨hc, his⟩ := List.forall_mem_cons.1 his
    have hstep : c.isTerminator = false := by
      cases c with
      | comment => rfl
      | _ => cases hc
    simpa using ih his (h.next (.step hstep))

theorem exists_next {rest : List Instr} (h : F.Walk done todo)
    (htodo : uncommented todo = i :: rest) :
    ∃ done' todo', F.Walk done' (i :: todo') ∧ uncommented done' = uncommented done ∧
      uncommented [i] = [i] ∧ uncommented todo' = rest := by
  obtain ⟨is, todo', rfl, his, hi, hrest⟩ := List.filter_eq_cons_iff.1 htodo
  have hcomments : ∀ c ∈ is, c.isComment = true := by simpa using his
  have hnone : uncommented is = [] := List.filter_eq_nil_iff.2 his
  have hself : uncommented [i] = [i] := uncommented_single (by simpa using hi)
  exact ⟨done ++ is, todo', h.pass hcomments, by simp [hnone], hself, hrest⟩

/-- A walk through the code without comments comes from one through the full code. -/
theorem of_withoutComments (h : F.withoutComments.Walk done todo) :
    ∃ done' todo', F.Walk done' todo' ∧ uncommented done' = done ∧ uncommented todo' = todo := by
  induction h with
  | entry hB =>
    rw [withoutComments, List.head?_map] at hB
    obtain ⟨B', hB', rfl⟩ := Option.map_eq_some_iff.1 hB
    exact ⟨[], B'.code, .entry hB', rfl, rfl⟩
  | @next done todo todo' i _ hnext ih =>
    obtain ⟨done₁, todo₁, hwalk₁, rfl, htodo⟩ := ih
    obtain ⟨done₂, todo₂, hwalk₂, hdone, hi, rfl⟩ := hwalk₁.exists_next htodo
    obtain ⟨todo₃, hnext₃, rfl⟩ := hnext.of_withoutComments
    exact ⟨_, todo₃, hwalk₂.next hnext₃, by rw [uncommented_append, hdone, hi], rfl⟩

end Func.Walk

/-- The rules carry over, if at a plain return the same cells count as lost. -/
theorem Func.Rules.withoutComments {lost lost' : Reg → Prop} (h : F.Rules m lost done i)
    (hlost : ∀ v, i = .ret v → F.signature.ret.isPointer = false → ∀ r, lost r ↔ lost' r) :
    F.withoutComments.Rules m.withoutComments lost' (uncommented done) i := by
  have hafter : Holdings.after m.withoutComments (uncommented done) = Holdings.after m done := by
    rw [Holdings.after_withoutComments, Holdings.after_uncommented]
  cases i with
  | call dst callee args =>
    obtain ⟨G, hG, hfresh, hargs⟩ := h
    refine ⟨G.withoutComments, by rw [Module.function?_withoutComments, hG]; rfl, ?_⟩
    rw [hafter]
    exact ⟨hfresh, hargs⟩
  | ret v =>
    have hret : F.withoutComments.signature.ret = F.signature.ret := rfl
    simp only [Func.Rules, hafter, hret] at h ⊢
    cases hty : F.signature.ret with
    | pointer p => simpa only [hty] using h
    | plain p => simpa only [hty, hlost v rfl (by rw [hty]; rfl)] using h
  | heapAlloc | heapFree | load | store | unreachable =>
    simp only [Func.Rules, hafter] at h ⊢
    exact h
  | _ => trivial

/-- At a plain return of a compiled function, the comment tells no more than the read behind it. -/
theorem compile_returnsLocal_iff (source : String) {F : Func}
    (hF : F ∈ (compile source Recorder.empty).2.toModule.functions) {v : Value}
    (hwalk : F.Walk done (.ret v :: todo)) (hplain : F.signature.ret.isPointer = false) (r : Reg) :
    (compile source Recorder.empty).2.toModule.ReturnsLocal done r ↔
      (compile source Recorder.empty).2.toModule.ReadsLocal (uncommented done) r := by
  refine ⟨readsLocal_of_returnsLocal, fun hr => ?_⟩
  refine ((compile_safe source hF hwalk).2 hplain r hr).resolve_right ?_
  rintro ⟨callee, args, hcall⟩
  obtain ⟨pre, dst, p, post, hdone, ⟨⟨x, hcell⟩, -⟩, -⟩ := hr
  have hmem : .heapAlloc r p x ∈ uncommented done := hdone ▸ List.mem_append_left _ hcell
  have halloc : .heapAlloc r p x ∈ F.code := hwalk.mem_code.1 _ (List.mem_filter.1 hmem).1
  have hbody : F.blocks ≠ [] := fun hnil => by simp [Func.code, hnil] at hcall
  obtain ⟨Γ, hdraft, -⟩ := compile_drafted source hF hbody
  obtain ⟨E, hcertified⟩ := hdraft.certified
  have hsame := hcertified.eq_of_dst? halloc hcall rfl rfl
  cases hsame

/-- On every walk through a function of the module, each instruction keeps the rules for the heap.
The return of a local is known by the read of its cell. -/
def Module.Disciplined (m : Module) : Prop :=
  ∀ F ∈ m.functions, ∀ done i todo, F.Walk done (i :: todo) → F.Rules m (m.ReadsLocal done) done i

theorem disciplined_withoutComments (source : String) :
    (compile source Recorder.empty).2.toModule.withoutComments.Disciplined := by
  intro F' hF' done i todo hwalk
  obtain ⟨F, hF, rfl⟩ := List.mem_map.1 hF'
  obtain ⟨done₁, todo₁, hwalk₁, rfl, htodo⟩ := hwalk.of_withoutComments
  obtain ⟨done₂, todo₂, hwalk₂, hdone, -, -⟩ := hwalk₁.exists_next htodo
  rw [← hdone]
  refine (compile_safe source hF hwalk₂).1.withoutComments fun v hv hplain r => ?_
  subst hv
  rw [Module.readsLocal_withoutComments]
  exact compile_returnsLocal_iff source hF hwalk₂ hplain r

/-- The targets that ignore comments get code that keeps the rules for the heap, like the one that
records them. -/
theorem compile_disciplined (source : String) :
    (compile source (Silent.mk Recorder.empty)).2.target.toModule.Disciplined ∧
      (compile source (Traced.mk Recorder.empty none [])).2.recorder.toModule.Disciplined := by
  obtain ⟨-, hsilent⟩ :=
    compile_forwarded Silent.forwards source (r := .empty) (t := ⟨.empty⟩) rfl
  obtain ⟨-, hlogged, -⟩ :=
    compile_forwarded Traced.forwards source (r := .empty) (t := ⟨.empty, none, []⟩) ⟨rfl, rfl⟩
  rw [hsilent, hlogged, Recorder.toModule_withoutComments]
  exact ⟨disciplined_withoutComments source, disciplined_withoutComments source⟩

/-- A function that reads the cell of its local and leaves it behind. -/
def Func.leftCell : Func where
  name := "f"
  signature := ⟨[], .plain .int⟩
  blocks := [⟨"entry", [.heapAlloc ⟨0⟩ .int "p", .load ⟨1⟩ .int (.reg ⟨0⟩), .ret (.reg ⟨1⟩)]⟩]
  registers := 2

example :
    let m := (compile "int f() \x7b Int p; return p; \x7d"
      (Silent.mk Recorder.empty)).2.target.toModule
    Func.leftCell ∈ m.functions ∧ ∃ done, Func.leftCell.Walk done [.ret (.reg ⟨1⟩)] ∧
      m.ReadsLocal done ⟨0⟩ ∧ (Holdings.after m done).live = {⟨0⟩} := by
  intro m
  have hentry : Func.leftCell.Walk [] _ := .entry rfl
  refine ⟨by decide +kernel, _, (hentry.next (.step rfl)).next (.step rfl), ?_, ?_⟩
  · exact ⟨[.heapAlloc ⟨0⟩ .int "p"], ⟨1⟩, .int, [], rfl, ⟨⟨"p", by simp⟩, by
      simp [Holdings.after, Holdings.step, Module.acquired?]⟩, by simp⟩
  · simp [Holdings.after, Holdings.step, Module.acquired?]

end ImpFront
